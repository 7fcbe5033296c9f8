import Mathlib.Data.List.Nodup
import Stagecraft.Proofs.Ids
import Stagecraft.Proofs.Reading
import Stagecraft.Proofs.Reread
import Stagecraft.Proofs.Spelling
import Stagecraft.Stage.Pool

/-!
# The ids of the pool

Every atom of the pool is there for one thing, and its id tells for which: the numbers of branches
and buttons can be read off, and what stands before and behind them tells the rest apart. So no two
atoms of the pool have one id, and an id is in the pool exactly if the capacity has a use for it.

* `Slot`, `Slot.id_inj`: what an atom is for, and that its id tells it.
* `slots`, `mem_slots`, `nodup_slots`: what the atoms for a capacity are for.
* `Yields`, `Supplies`: templates that make atoms with the ids that they are given.
* `pool?_allotted`: **the pool has the ids of its capacity**, each once.
* `supplies_workshop`: templates that supply every capacity.
-/

namespace Stagecraft

namespace Stage

/-! ## What an atom is for -/

/-- The id of the root. -/
def rootId : String := "Dialog"

/-- What an atom of the pool is for. -/
inductive Slot where
  | root
  | panel
  | start
  | branch (n : Nat)
  | duration (n : Nat)
  | button (n : Nat)

/-- The id of the atom. -/
def Slot.id : Slot → String
  | .root => rootId
  | .panel => panelId
  | .start => startButtonId
  | .branch n => branchId n
  | .duration n => durationId (branchId n)
  | .button n => buttonId n

variable {c : Capacity} {a b : Slot}

/-- **An id tells what its atom is for.** -/
theorem Slot.id_inj (h : a.id = b.id) : a = b := by
  have hs := congrArg String.toList h
  cases a <;> cases b
  case branch.branch => rw [branchId_inj h]
  case duration.duration => rw [branchId_inj (durationId_inj h)]
  case button.button => rw [buttonId_inj h]
  case branch.duration => exact absurd h.symm (durationId_ne_branchId _)
  case duration.branch => exact absurd h (durationId_ne_branchId _)
  -- the others part before a number begins
  all_goals
    simp [id, rootId, panelId, startButtonId, durationId, branchId, buttonId, numbered] at hs ⊢

/-- The capacity has a use for the atom. -/
def Slot.Fits (c : Capacity) : Slot → Prop
  | .root | .panel | .start => 0 < c.branches
  | .branch n | .duration n => 1 ≤ n ∧ n ≤ c.branches
  | .button n => 1 ≤ n ∧ n ≤ c.choices

/-- What the atoms for a capacity are for: those that stand once, the branches with their lengths,
and the buttons. -/
def slots (c : Capacity) : List Slot :=
  (if c.branches = 0 then [] else [.root, .panel, .start]) ++
    (List.range' 1 c.branches).flatMap (fun n => [Slot.branch n, .duration n]) ++
    (List.range' 1 c.choices).flatMap (fun n => [Slot.button n])

theorem mem_slots : a ∈ slots c ↔ a.Fits c := by
  cases a <;> simp [slots, Slot.Fits, List.mem_range'_1, Nat.pos_iff_ne_zero] <;> omega

/-- Numbers that give disjoint lists. -/
theorem nodup_flatMap_range' {f : Nat → List Slot} (hf : ∀ n, (f n).Nodup)
    (hdisjoint : ∀ m n, m ≠ n → (f n).Disjoint (f m)) (i n : Nat) :
    ((List.range' i n).flatMap f).Nodup := by
  have hrange : (List.range' i n).Nodup := List.nodup_range'
  exact List.nodup_flatMap.2 ⟨fun n _ => hf n, hrange.imp fun hne => hdisjoint _ _ hne.symm⟩

theorem nodup_slots (c : Capacity) : (slots c).Nodup := by
  have honce : (if c.branches = 0 then [] else [Slot.root, .panel, .start]).Nodup := by
    split <;> simp
  have hbranches : ((List.range' 1 c.branches).flatMap fun n => [Slot.branch n, .duration n]).Nodup :=
    nodup_flatMap_range' (fun n => by simp) (fun m n hne => by simp [hne]) 1 _
  have hbuttons : ((List.range' 1 c.choices).flatMap fun n => [Slot.button n]).Nodup :=
    nodup_flatMap_range' (fun n => by simp) (fun m n hne => by simp [hne]) 1 _
  refine List.nodup_append'.2 ⟨List.nodup_append'.2 ⟨honce, hbranches, ?_⟩, hbuttons, ?_⟩
  · intro a ha hb
    cases a <;> simp at ha hb
  · intro a ha hb
    cases a <;> simp at ha hb

/-! ## Templates and what they make -/

/-- **The atoms that are made have these ids**, in any order. -/
def Yields (made : Except Fault (List Atom)) (ids : List String) : Prop :=
  ∃ as, made = .ok as ∧ (as.map Atom.id).Perm ids

/-- **Templates that supply a capacity.** The template of the dialog makes the three atoms that stand
once. For the ids that the capacity takes, that of a branch makes an atom with the id and one with
the id of its length, and that of a button an atom with the id. -/
structure Supplies (s : TemplateStore) (t : FileTree) (c : Capacity) : Prop where
  dialog : 0 < c.branches → Yields (s.instantiate? t "dialog" {}) [rootId, panelId, startButtonId]
  branch : ∀ n, 1 ≤ n → n ≤ c.branches →
    Yields (s.instantiate? t "dialog_branch" { id := some (branchId n) })
      [branchId n, durationId (branchId n)]
  button : ∀ n, 1 ≤ n → n ≤ c.choices →
    Yields (s.instantiate? t "dialog_choice"
      { id := some (buttonId n), position := some (buttonHeight (n - 1)) }) [buttonId n]

/-- **The ids for a capacity**, each once. -/
structure Allotted (c : Capacity) (ids : List String) : Prop where
  distinct : ids.Nodup
  root : ∀ i ∈ [rootId, panelId, startButtonId], i ∈ ids ↔ 0 < c.branches
  branch : ∀ n, branchId n ∈ ids ↔ 1 ≤ n ∧ n ≤ c.branches
  duration : ∀ n, durationId (branchId n) ∈ ids ↔ 1 ≤ n ∧ n ≤ c.branches
  button : ∀ n, buttonId n ∈ ids ↔ 1 ≤ n ∧ n ≤ c.choices

variable {s : TemplateStore} {t : FileTree} {ids : List String}

theorem Yields.gather {make : Nat → Except Fault (List Atom)} {f : Nat → List Slot} {i n : Nat}
    (h : ∀ k, i ≤ k → k < i + n → Yields (make k) ((f k).map Slot.id)) :
    Yields (TemplateStore.gather make i n) (((List.range' i n).flatMap f).map Slot.id) := by
  induction n generalizing i with
  | zero => exact ⟨[], rfl, .nil⟩
  | succ n ih =>
    obtain ⟨as, has, hids⟩ := h i (Nat.le_refl i) (by omega)
    obtain ⟨bs, hbs, hrest⟩ := ih (i := i + 1) fun k h1 h2 => h k (by omega) (by omega)
    refine ⟨as ++ bs, ?_, ?_⟩
    · simp only [TemplateStore.gather, has, hbs]
      rfl
    · rw [List.range'_succ, List.flatMap_cons, List.map_append, List.map_append]
      exact hids.append hrest

/-- The pool is made if its parts are, and has their ids. -/
theorem Supplies.yields (h : Supplies s t c) : Yields (pool? s t c) ((slots c).map Slot.id) := by
  -- the dialog once if there is a branch, and then what each number needs
  obtain ⟨once, honce, hids₁⟩ : Yields (if c.branches = 0 then .ok [] else dialogAtoms? s t)
      ((if c.branches = 0 then [] else [Slot.root, .panel, .start]).map Slot.id) := by
    split
    · exact ⟨[], rfl, .nil⟩
    · rename_i hc
      exact h.dialog (Nat.pos_of_ne_zero hc)
  obtain ⟨branches, hbranches, hids₂⟩ : Yields (TemplateStore.gather (branchAtoms? s t) 1 c.branches)
      (((List.range' 1 c.branches).flatMap fun n => [Slot.branch n, .duration n]).map Slot.id) :=
    .gather fun n h1 h2 => h.branch n h1 (by omega)
  obtain ⟨buttons, hbuttons, hids₃⟩ : Yields (TemplateStore.gather (buttonAtoms? s t) 1 c.choices)
      (((List.range' 1 c.choices).flatMap fun n => [Slot.button n]).map Slot.id) :=
    .gather fun n h1 h2 => h.button n h1 (by omega)
  refine ⟨once ++ branches ++ buttons, ?_, ?_⟩
  · rw [pool?]
    split
    · rename_i hc
      rw [if_pos hc] at honce
      cases honce
      simp only [hbranches, hbuttons]
      rfl
    · rename_i hc
      rw [if_neg hc] at honce
      simp only [honce, hbranches, hbuttons]
      rfl
  · simp only [slots, List.map_append]
    exact (hids₁.append hids₂).append hids₃

/-- What the atoms are for tells which ids there are. -/
theorem allotted_of_perm (h : ids.Perm ((slots c).map Slot.id)) : Allotted c ids := by
  have hinj : Function.Injective Slot.id := fun _ _ => Slot.id_inj
  have hmem : ∀ a : Slot, a.id ∈ ids ↔ a.Fits c := fun a => by
    rw [h.mem_iff, List.mem_map_of_injective hinj, mem_slots]
  refine ⟨h.nodup_iff.2 ((nodup_slots c).map hinj), fun i hi => ?_, fun n => hmem (.branch n),
    fun n => hmem (.duration n), fun n => hmem (.button n)⟩
  simp only [List.mem_cons, List.not_mem_nil, or_false] at hi
  rcases hi with rfl | rfl | rfl
  · exact hmem .root
  · exact hmem .panel
  · exact hmem .start

/-- **The pool has no clashes of ids.** It is made if the templates supply its capacity, it has the
ids of the capacity, each once, and so no atom is lost when the atoms are kept by id. -/
theorem pool?_allotted (h : Supplies s t c) : ∃ as, pool? s t c = .ok as ∧
    Allotted c (as.map Atom.id) ∧ (Registry.ofList as).toList = as := by
  obtain ⟨as, has, hids⟩ := h.yields
  have hallotted := allotted_of_perm hids
  exact ⟨as, has, hallotted, Registry.toList_ofList hallotted.distinct⟩

end Stage

/-! ## Texts that are read with a part left open -/

namespace Json.Lexer

variable {s : List Char}

/-- A quoted text without escapes is one token. -/
theorem foldlM_quoted (hs : Unescaped s) (rest : List Char) (back : List Token) :
    (s ++ '"' :: rest).foldlM step ⟨.quoted [], back⟩ =
      rest.foldlM step ⟨.gap, .leaf (.str (some (String.ofList s))) :: back⟩ := by
  rw [(spells_of_unescaped hs).run_quote, Piece.join?_map_char]
  rfl

end Json.Lexer

/-- A text with two placeholders is filled in. -/
theorem Placeholder.expand_pair {template : String} {values : Placeholders}
    {cs a b d v w x y : List Char}
    (hcut : cut cs = a.map .char ++ .token v :: (b.map .char ++ .token w :: d.map .char))
    (hv : fill? template values v = .ok x) (hw : fill? template values w = .ok y) :
    expand template values cs = .ok (a ++ (x ++ (b ++ (y ++ d)))) := by
  rw [expand_eq, hcut, fillAll_append, fillAll_chars, fillAll, fillAll_append, fillAll_chars, fillAll,
    fillAll_chars]
  simp only [Piece.fill?, hv, hw]
  rfl

namespace TemplateStore

variable {s : TemplateStore} {t : FileTree} {name text : String} {values : Placeholders}
  {filled : List Char} {vs : List Json} {as : List Atom}

/-- The atoms of a template, step by step. -/
theorem instantiate?_of_expand (hfile : t.stat (s.pathOf name) = .ok (.file text.toUTF8))
    (hfill : Placeholder.expand name values text.toList = .ok filled)
    (hparse : Json.parse? (String.ofList filled) = some (.arr vs))
    (has : vs.mapM Atom.ofJson? = .ok as) : s.instantiate? t name values = .ok as := by
  simp only [instantiate?, load?_of_stat hfile, parse?, hfill, hparse, has]

end TemplateStore

namespace Stage

open Json (Lexer tokens?)

/-! ## Templates for every capacity -/

/-- A template of the atoms that stand once. -/
def dialogText : String :=
  "[\x7b\"id\":\"Dialog\"\x7d,\x7b\"id\":\"Dialog-Choices\"\x7d,\x7b\"id\":\"Dialog-StartBtn\"\x7d]"

/-- What stands in front of the first id. -/
def opening : List Char := "[\x7b\"id\":\"".toList

/-- What stands between the ids of a branch and its length. -/
def between : List Char :=
  ",\"storables\":[\x7b\"id\":\"AnimationPattern\"\x7d]\x7d,\x7b\"id\":\"".toList

/-- What stands behind the id of a length. -/
def closing : List Char := ",\"storables\":[\x7b\"id\":\"Step\"\x7d]\x7d]".toList

/-- What stands between the id of a button and its height. -/
def toHeight : List Char := ",\"position\":\x7b\"y\":\"".toList

/-- A template of a branch and its length. -/
def pairText : String := String.ofList
  (opening ++ "$ID\"".toList ++ between ++ "$ID-Duration\"".toList ++ closing)

/-- A template of a button. -/
def buttonText : String := String.ofList
  (opening ++ "$ID\"".toList ++ toHeight ++ "$POSITION\"\x7d\x7d]".toList)

/-- A directory with the three templates. -/
def workshop : FileTree where
  cwd := []
  entries := [(["t"], .dir), (["t", "dialog.json"], .file dialogText.toUTF8),
    (["t", "dialog_branch.json"], .file pairText.toUTF8),
    (["t", "dialog_choice.json"], .file buttonText.toUTF8)]

def toolbox : TemplateStore := ⟨⟨["t"]⟩⟩

theorem stat_workshop {name text : String} (h : (name, text) ∈ [("dialog", dialogText),
    ("dialog_branch", pairText), ("dialog_choice", buttonText)]) :
    workshop.stat (toolbox.pathOf name) = .ok (.file text.toUTF8) := by
  obtain ⟨hpath, hfault, hplain, hentry⟩ : toolbox.pathOf name = ⟨["t", name ++ ".json"]⟩ ∧
      Path.fault? ⟨["t", name ++ ".json"]⟩ = none ∧ Path.Plain (name ++ ".json") ∧
      workshop.entry? ["t", name ++ ".json"] = some (.file text.toUTF8) := by
    simp only [List.mem_cons, List.not_mem_nil, or_false, Prod.mk.injEq] at h
    rcases h with ⟨rfl, rfl⟩ | ⟨rfl, rfl⟩ | ⟨rfl, rfl⟩ <;>
      exact ⟨by decide +kernel, by cbv, by decide, rfl⟩
  have hresolve : workshop.resolve ⟨["t", name ++ ".json"]⟩ = .ok ["t", name ++ ".json"] :=
    FileTree.resolve_pair hfault (by decide) hplain rfl rfl
  simp only [hpath, FileTree.stat, hresolve, hentry]

theorem yields_dialog : Yields (toolbox.instantiate? workshop "dialog" {})
    [rootId, panelId, startButtonId] := by
  have hfill : Placeholder.expand "dialog" {} dialogText.toList = .ok dialogText.toList :=
    Placeholder.expand_of_plain (by decide)
  have hparse : Json.parse? (String.ofList dialogText.toList) = some (.arr [.obj [("id", .str rootId)],
      .obj [("id", .str panelId)], .obj [("id", .str startButtonId)]]) := by
    rw [Json.parse?, Json.raw?_ofList]
    cbv
  exact ⟨_, TemplateStore.instantiate?_of_expand (stat_workshop (.head _)) hfill hparse rfl, .refl _⟩

theorem parse?_branch {i d : List Char} (hi : Unescaped i) (hd : Unescaped d) :
    Json.parse? (String.ofList (opening ++ (i ++ '"' :: (between ++ (d ++ '"' :: closing))))) =
      some (.arr [
        .obj [("id", .str (.ofList i)), ("storables", .arr [.obj [("id", .str "AnimationPattern")]])],
        .obj [("id", .str (.ofList d)), ("storables", .arr [.obj [("id", .str "Step")]])]]) := by
  have hraw : Json.raw? (String.ofList (opening ++ (i ++ '"' :: (between ++ (d ++ '"' :: closing))))) =
      some (.arr [
        .obj [(some "id", .str (some (.ofList i))),
          (some "storables", .arr [.obj [(some "id", .str (some "AnimationPattern"))]])],
        .obj [(some "id", .str (some (.ofList d))),
          (some "storables", .arr [.obj [(some "id", .str (some "Step"))]])]]) := by
    -- the fixed parts are read as they stand, and the ids between them each as one token
    rw [Json.raw?_ofList, tokens?, Lexer.foldlM_append_of_eq rfl, Lexer.foldlM_quoted hi,
      Lexer.foldlM_append_of_eq rfl, Lexer.foldlM_quoted hd]
    rfl
  rw [Json.parse?, hraw]
  rfl

theorem parse?_button {i y : List Char} (hi : Unescaped i) (hy : Unescaped y) :
    Json.parse? (String.ofList (opening ++ (i ++ '"' ::
      (toHeight ++ (y ++ '"' :: "\x7d\x7d]".toList))))) =
        some (.arr [.obj [("id", .str (.ofList i)), ("position", .obj [("y", .str (.ofList y))])]]) := by
  have hraw : Json.raw? (String.ofList (opening ++ (i ++ '"' ::
      (toHeight ++ (y ++ '"' :: "\x7d\x7d]".toList))))) = some (.arr [.obj
        [(some "id", .str (some (.ofList i))),
          (some "position", .obj [(some "y", .str (some (.ofList y)))])]]) := by
    rw [Json.raw?_ofList, tokens?, Lexer.foldlM_append_of_eq rfl, Lexer.foldlM_quoted hi,
      Lexer.foldlM_append_of_eq rfl, Lexer.foldlM_quoted hy]
    rfl
  rw [Json.parse?, hraw]
  rfl

/-- A branch and its length, for any id without escapes. -/
theorem yields_branch {i : String} (hi : Unescaped i.toList) :
    Yields (toolbox.instantiate? workshop "dialog_branch" { id := some i }) [i, durationId i] := by
  -- the id is put in twice: for the branch and for its length
  have hcut : Placeholder.cut pairText.toList = opening.map .char ++
      .token Placeholder.idWord :: (('"' :: between).map .char ++
        .token Placeholder.idWord :: ("-Duration".toList ++ '"' :: closing).map .char) := by
    rw [pairText, String.toList_ofList]
    cbv
  have hfill : Placeholder.expand "dialog_branch" { id := some i } pairText.toList =
      .ok (opening ++ (i.toList ++ '"' :: (between ++ ((durationId i).toList ++ '"' :: closing)))) := by
    rw [Placeholder.expand_pair hcut rfl rfl, durationId, String.toList_append, List.append_assoc]
    rfl
  have hduration : Unescaped (durationId i).toList := by
    rw [durationId, String.toList_append]
    exact List.forall_mem_append.2 ⟨hi, by decide⟩
  have hparse := parse?_branch hi hduration
  rw [String.ofList_toList, String.ofList_toList] at hparse
  exact ⟨_, TemplateStore.instantiate?_of_expand (stat_workshop (.tail _ (.head _))) hfill hparse rfl,
    .refl _⟩

/-- A button, for any id without escapes and at any height. -/
theorem yields_button {i : String} (hi : Unescaped i.toList) (y : Float) :
    Yields (toolbox.instantiate? workshop "dialog_choice" { id := some i, position := some y })
      [i] := by
  -- the id and then the height; a number needs no escapes
  have hcut : Placeholder.cut buttonText.toList = opening.map .char ++
      .token Placeholder.idWord :: (('"' :: toHeight).map .char ++
        .token Placeholder.positionWord :: "\"\x7d\x7d]".toList.map .char) := by
    rw [buttonText, String.toList_ofList]
    cbv
  have hfill : Placeholder.expand "dialog_choice" { id := some i, position := some y }
      buttonText.toList = .ok (opening ++ (i.toList ++ '"' :: (toHeight ++
        (Decimal.plain.write y ++ '"' :: "\x7d\x7d]".toList)))) :=
    Placeholder.expand_pair hcut rfl rfl
  have hy : Unescaped (Decimal.plain.write y) :=
    Placeholder.unescaped_of_inDouble (Decimal.inDouble_write _ y)
  have hparse := parse?_button hi hy
  rw [String.ofList_toList] at hparse
  exact ⟨_, TemplateStore.instantiate?_of_expand (stat_workshop (.tail _ (.tail _ (.head _)))) hfill
    hparse rfl, .refl _⟩

/-- These templates supply every capacity. -/
theorem supplies_workshop (c : Capacity) : Supplies toolbox workshop c where
  dialog _ := yields_dialog
  branch n _ _ := yields_branch (Json.unescaped_numbered (by decide) n)
  button n _ _ := yields_button (Json.unescaped_numbered (by decide) n) _

/-- Twelve branches and three buttons. -/
theorem pool?_allotted_workshop : Supplies toolbox workshop ⟨12, 3⟩ ∧
    ∃ as, pool? toolbox workshop ⟨12, 3⟩ = .ok as ∧ Allotted ⟨12, 3⟩ (as.map Atom.id) ∧
      (Registry.ofList as).toList = as :=
  ⟨supplies_workshop _, pool?_allotted (supplies_workshop _)⟩

end Stage

end Stagecraft
