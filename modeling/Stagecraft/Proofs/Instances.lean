import Stagecraft.Proofs.Ids
import Stagecraft.Proofs.Lockstep
import Stagecraft.Proofs.Merging

/-!
# Instances of a package

The text of a package is filled in with one id after the other, and each time the atom that it
describes has that id. The ids are the first name on the way to the package, and this name with a
number behind.

* `Json.Fixes`, `Json.Settled`: keys that stay what they are while other keys change.
* `Json.Tied.isAtom`: **an atom stays an atom**.
* `Stencil`: a text that describes one atom with the placeholder as its id.
* `TemplateStore.package?_ids`: **the ids of the instances**.
-/

namespace Stagecraft

open Json (idMark PutsIn)

/-! ## Fields -/

namespace Fields

variable {R : Json → Json → Prop} {fs fs' es es' : Fields} {j : String}

theorem mem_keys_setAll : j ∈ (fs.setAll es).keys ↔ j ∈ fs.keys ∨ j ∈ Fields.keys es := by
  induction es generalizing fs with
  | nil => simp [setAll, keys]
  | cons e es ih =>
    have hset : j ∈ (fs.set e.1 e.2).keys ↔ j ∈ fs.keys ∨ j = e.1 := by
      rw [keys_set]
      split
      · rename_i he
        exact ⟨.inl, fun h => h.elim id fun h => h ▸ he⟩
      · rw [List.mem_append, List.mem_singleton]
    show j ∈ ((fs.set e.1 e.2).setAll es).keys ↔ j ∈ fs.keys ∨ j ∈ e.1 :: Fields.keys es
    rw [ih, hset, List.mem_cons, or_assoc]

/-- Entries are laid over fields one by one. If the same ones have the key `j`, the values of the
key relate as those of the entries do. -/
theorem rel_get?_setAll (hkeys : List.Forall₂ (fun e e' => e'.1 = j ↔ e.1 = j) es es')
    (hvalues : List.Forall₂ (fun e e' => R e.2 e'.2) es es')
    (h : Option.Rel R (fs.get? j) (fs'.get? j)) :
    Option.Rel R ((fs.setAll es).get? j) ((fs'.setAll es').get? j) := by
  induction hvalues generalizing fs fs' with
  | nil => exact h
  | @cons e e' es es' hv _ ih =>
    cases hkeys with
    | cons hk hkeys =>
      refine ih hkeys ?_
      show Option.Rel R ((fs.set e.1 e.2).get? j) ((fs'.set e'.1 e'.2).get? j)
      by_cases hj : e.1 = j
      · rw [hj, hk.2 hj, get?_set_self, get?_set_self]
        exact .some hv
      · rw [get?_set_of_ne _ _ (Ne.symm hj), get?_set_of_ne _ _ fun he => hj (hk.1 he.symm)]
        exact h

end Fields

/-! ## Records -/

namespace Json

variable {K T : String → String → Prop} {v v' w : Json} {j : String} {y : List Char} {c : Char}

/-- **The key `j` of an object stays what it is** while keys change as `K` tells: it becomes no
other key, and no other key becomes `j`. -/
def Fixes (K : String → String → Prop) (j : String) (v : Json) : Prop :=
  ∀ fs, v = .obj fs → ∀ k ∈ Fields.keys fs, ∀ k', K k k' → (k' = j ↔ k = j)

/-- **The keys that make an atom stay** what they are: those of the id and of the storables, and
the ids of these. -/
structure Settled (K : String → String → Prop) (v : Json) : Prop where
  id : v.Fixes K idKey
  storables : v.Fixes K storablesKey
  parts : ∀ vs, v.field? storablesKey = some (.arr vs) → ∀ u ∈ vs, u.Fixes K idKey

/-- A field whose key stays. -/
theorem Tied.rel_field? (h : Tied K T v v') (hfix : v.Fixes K j) :
    Option.Rel (Tied K T) (v.field? j) (v'.field? j) := by
  cases h with
  | @obj es es' hkeys hvalues =>
    refine Fields.rel_get?_setAll ?_ hvalues .none
    have hmem : ∀ e ∈ es, e.1 ∈ (Fields.setAll [] es).keys := fun e he =>
      Fields.mem_keys_setAll.2 (.inr (List.mem_map_of_mem he))
    exact ((List.forall₂_and_left _ _).2 ⟨hmem, hkeys⟩).imp fun e e' h => hfix _ rfl _ h.1 _ h.2
  | _ => exact .none

/-- Of two documents with the same keys, a key stays in the one if it does in the other. -/
theorem Tied.fixes (h : Tied Eq T v v') (hfix : v.Fixes K j) : v'.Fixes K j := by
  cases h with
  | @obj es es' hkeys _ =>
    have hsame : Fields.keys es = Fields.keys es' :=
      List.forall₂_eq_eq_eq ▸ List.forall₂_map_left_iff.2 (List.forall₂_map_right_iff.2 hkeys)
    intro fs hfs k hk
    cases hfs
    refine hfix _ rfl k ?_
    rw [Fields.mem_keys_setAll] at hk ⊢
    rwa [hsame]
  | _ =>
    intro fs hfs
    cases hfs

/-- A list of one value stays one. -/
theorem Tied.singleton (h : Tied K T (.arr [v]) w) : ∃ v', w = .arr [v'] ∧ Tied K T v v' := by
  cases h with
  | arr hall =>
    cases hall with
    | cons hv hnil =>
      cases hnil
      exact ⟨_, rfl, hv⟩

/-- A record stays a record. -/
theorem Tied.isRecord (h : Tied K T v v') (hfix : v.Fixes K idKey) (hv : v.IsRecord) :
    v'.IsRecord := by
  obtain ⟨i, hi⟩ := hv
  have hrel := h.rel_field? hfix
  rw [hi] at hrel
  generalize hw : v'.field? idKey = w at hrel
  cases hrel with
  | some hid =>
    cases hid
    exact ⟨_, hw⟩

/-- **An atom stays an atom** if its keys stay. -/
theorem Tied.isAtom (h : Tied K T v v') (hkeys : v.Settled K) (hv : v.IsAtom) : v'.IsAtom := by
  refine ⟨h.isRecord hkeys.id hv.record, fun w' hw' => ?_⟩
  have hrel := h.rel_field? hkeys.storables
  rw [hw'] at hrel
  generalize hw : v.field? storablesKey = w at hrel
  cases hrel with
  | some hlisted =>
    obtain ⟨vs, rfl, hvs⟩ := hv.storables _ hw
    cases hlisted with
    | @arr _ vs' hall =>
      refine ⟨vs', rfl, fun u' hu' => ?_⟩
      obtain ⟨u, hu, hu'⟩ := exists_of_forall₂ hall.flip hu'
      exact hu'.isRecord (hkeys.parts vs hw u hu) (hvs u hu)

/-- An id with a character that the key does not have leaves it alone. -/
theorem fixes_of_missing (hc : c ∈ y) (hj : c ∉ j.toList) (hd : '$' ∉ j.toList) :
    v.Fixes (PutsIn y) j := by
  intro fs _ k _ k' hk
  constructor
  · rintro rfl
    exact (String.toList_inj.1 (hk.eq_of_missing hc hj)).symm
  · rintro rfl
    exact String.toList_inj.1 (hk.eq_of_plain hd)

theorem settled_of_missing (hc : c ∈ y) (hid : c ∉ idKey.toList)
    (hstorables : c ∉ storablesKey.toList) : v.Settled (PutsIn y) where
  id := fixes_of_missing hc hid (by decide)
  storables := fixes_of_missing hc hstorables (by decide)
  parts _ _ _ _ := fixes_of_missing hc hid (by decide)

end Json

/-! ## One instance -/

/-- The words of the placeholders of a text. -/
def Placeholder.words (cs : List Char) : List (List Char) :=
  (cut cs).filterMap fun
    | .char _ => none
    | .token w => some w

theorem Placeholder.mem_words {cs w : List Char} (h : .token w ∈ cut cs) : w ∈ words cs :=
  List.mem_filterMap.2 ⟨_, h, rfl⟩

/-- **A package of one atom**: a text whose document is a list of one atom, which has the
placeholder of an id as its id. -/
structure Single (text : String) (v : Json) : Prop where
  parse : Json.parse? text = some (.arr [v])
  atom : v.IsAtom
  id : v.field? idKey = some (.str "$ID")

/-- **A stencil** for the id `base`: a package of one atom in which no other placeholder stands, the
placeholder that is its id is written out, and no key becomes that of the id or of the storables
with `base` in it. -/
structure Stencil (base text : String) (v : Json) : Prop extends Single text v where
  words : ∀ w ∈ Placeholder.words text.toList, w = Placeholder.idWord
  written : ∃ u, Json.written? text = some (.arr [u]) ∧ u.field? idKey = some (.str "$ID")
  keys : v.Settled (PutsIn base.toList)

namespace TemplateStore

variable {s : TemplateStore} {t : FileTree} {name text i p base : String} {v : Json}

theorem load?_of_read? (h : s.read? t name = .ok text) (values : Placeholders) :
    s.load? t name values = parse? name values text := by
  rw [load?, h]

/-- A stencil is filled in. -/
theorem expand_of_stencil (hv : Stencil base text v) (name i : String) :
    Placeholder.expand name { id := some i } text.toList =
      .ok (Placeholder.put i.toList text.toList) := by
  have hgives : ∀ w, .token w ∈ Placeholder.cut text.toList →
      Placeholders.Gives { id := some i } w :=
    fun w hw => .inl ⟨hv.words w (Placeholder.mem_words hw), rfl⟩
  have hput : (Placeholder.cut text.toList).map (Placeholder.Piece.filled { id := some i }) =
      (Placeholder.cut text.toList).map (Placeholder.Piece.put i.toList) := by
    refine List.map_congr_left fun piece hpiece => ?_
    cases piece with
    | char c => rfl
    | token w =>
      obtain rfl := hv.words w (Placeholder.mem_words hpiece)
      rfl
  rw [Placeholder.expand, Placeholder.mapM_fill?_of_gives hgives, hput, Placeholder.put,
    List.flatMap_def]
  rfl

/-- **An instance** is one atom with the id that is put in. -/
theorem instantiate?_of_stencil (hread : s.read? t name = .ok text) (hv : Stencil base text v)
    (hi : Unescaped i.toList) (hkeys : v.Settled (PutsIn i.toList)) :
    ∃ a, s.instantiate? t name { id := some i } = .ok [a] ∧ a.id = i := by
  obtain ⟨u, hu, hid⟩ := hv.written
  obtain ⟨w, doc, hw, hdoc, hvu, hvv', huv'⟩ := Json.tied_of_parse? hi hv.parse
  rw [hu, Option.some.injEq] at hw
  subst hw
  -- the text lists one value, and so it does as it is written and with the id in it
  obtain ⟨v', rfl, hatom⟩ := hvv'.singleton
  obtain ⟨_, ⟨⟩, hsame⟩ := hvu.singleton
  obtain ⟨_, ⟨⟩, hput⟩ := huv'.singleton
  obtain ⟨a, ha⟩ := Atom.exists_ofJson?_iff.2 (hatom.isAtom hkeys hv.atom)
  have hload : s.load? t name { id := some i } = .ok (.arr [v']) := by
    simp only [load?_of_read? hread, parse?, expand_of_stencil hv, hdoc]
  refine ⟨a, ?_, ?_⟩
  · simp only [instantiate?, hload, List.mapM_cons, List.mapM_nil, ha]
    rfl
  · -- the id is written out as the placeholder, and this is what the id is put in for
    have hrel := hput.rel_field? (hsame.fixes hkeys.id)
    rw [hid, Atom.id_of_ofJson? ha] at hrel
    cases hrel with
    | some h =>
      cases h with
      | str h => rw [h rfl, String.ofList_toList]

/-! ## All instances -/

/-- The first name on the way to a package. -/
def leading (package : String) : String := String.ofList (package.toList.takeWhile (· ≠ '/'))

theorem beforeFirst_slash (cs : List Char) :
    Text.beforeFirst ['/'] cs = cs.takeWhile (· ≠ '/') := by
  induction cs with
  | nil => rfl
  | cons c cs ih =>
    rw [Text.beforeFirst, List.takeWhile_cons, ih]
    by_cases hc : c = '/'
    · simp [hc]
    · simp [hc, Ne.symm hc]

/-- The id of an instance, counted from 0. -/
def idAt (base : String) (k : Nat) : String :=
  if k = 0 then base else Stage.numbered base (k + 1)

theorem instanceId_eq (p : String) (k : Nat) : instanceId p (1 + k) = idAt (leading p) k := by
  rw [instanceId, beforeFirst_slash, idAt, Nat.add_comm 1 k]
  cases k with
  | zero => rfl
  | succ k => rfl

theorem unescaped_idAt {base : String} (h : Unescaped base.toList) (k : Nat) :
    Unescaped (idAt base k).toList := by
  rw [idAt]
  split
  · exact h
  · exact Json.unescaped_numbered h (k + 1)

/-- The mark of a numbered id is in no key of an atom. -/
theorem settled_idAt {base : String} (h : v.Settled (PutsIn base.toList)) (k : Nat) :
    v.Settled (PutsIn (idAt base k).toList) := by
  rw [idAt]
  split
  · exact h
  · have hmark : '#' ∈ (Stage.numbered base (k + 1)).toList := by
      rw [Stage.numbered, String.toList_append, String.toList_append]
      exact List.mem_append_left _ (List.mem_append_right _ List.mem_cons_self)
    exact Json.settled_of_missing hmark (by decide) (by decide)

theorem ne_numbered (base : String) (n : Nat) : base ≠ Stage.numbered base n := by
  intro h
  have hlength := congrArg (fun b => b.toList.length) h
  simp only [Stage.numbered, String.toList_append, List.length_append] at hlength
  have hmark : "#".toList.length = 1 := rfl
  omega

theorem idAt_inj {base : String} {j k : Nat} (h : idAt base j = idAt base k) : j = k := by
  unfold idAt at h
  split at h <;> split at h
  · omega
  · exact absurd h (ne_numbered base _)
  · exact absurd h.symm (ne_numbered base _)
  · exact Nat.succ.inj (Stage.numbered_inj h)

/-- What is made for one number after the other, if one atom is made for each. -/
theorem gather_of_forall {make : Nat → Except Fault (List Atom)} {f : Nat → String} {i n : Nat}
    (h : ∀ k, ∃ a, make (i + k) = .ok [a] ∧ a.id = f k) :
    ∃ as, gather make i n = .ok as ∧ as.map Atom.id = (List.range n).map f := by
  induction n generalizing i f with
  | zero => exact ⟨[], rfl, rfl⟩
  | succ n ih =>
    obtain ⟨a, ha, hid⟩ := h 0
    -- the rest is made for the numbers from the next one on
    have hlater : ∀ k, ∃ a, make (i + 1 + k) = .ok [a] ∧ a.id = f (k + 1) := by
      intro k
      rw [Nat.add_assoc, Nat.add_comm 1 k]
      exact h (k + 1)
    obtain ⟨as, has, hids⟩ := ih hlater
    rw [Nat.add_zero] at ha
    refine ⟨a :: as, ?_, ?_⟩
    · simp only [gather, ha, has]
      rfl
    · rw [List.map_cons, hid, hids, List.range_succ_eq_map, List.map_cons, List.map_map]
      rfl

/-- **The ids of the instances.** Any number of instances of a stencil can be made, if the first
name on the way to the package needs no escapes. Their ids are, in order, this name, and this name
with a number from 2 on; no two are the same. -/
theorem package?_ids (hread : s.read? t ("packages/" ++ p) = .ok text)
    (hv : Stencil (leading p) text v)
    (hp : Unescaped (leading p).toList) (n : Nat) :
    ∃ as, s.package? t p n = .ok as ∧
      as.map Atom.id = (List.range n).map (fun k =>
        if k = 0 then leading p else Stage.numbered (leading p) (k + 1)) ∧
      (as.map Atom.id).Nodup := by
  have hmake : ∀ k, ∃ a, s.instantiate? t ("packages/" ++ p)
      { id := some (instanceId p (1 + k)) } = .ok [a] ∧ a.id = idAt (leading p) k := by
    intro k
    rw [instanceId_eq]
    exact instantiate?_of_stencil hread hv (unescaped_idAt hp k) (settled_idAt hv.keys k)
  obtain ⟨as, has, hids⟩ : ∃ as, s.package? t p n = .ok as ∧
      as.map Atom.id = (List.range n).map (idAt (leading p)) := gather_of_forall hmake
  refine ⟨as, has, hids, ?_⟩
  rw [hids]
  exact List.nodup_range.map fun j k h => idAt_inj h

/-! ## Five packages -/

/-- A stencil that also holds the placeholder outside the id, once in a key. Its note states one by
an escape, which stays. -/
def femaleText : String :=
  "[\x7b\"id\":\"$ID\",\"$ID-by\":\"\\u0024ID\",\"storables\":[\x7b\"id\":\"Seat of $ID\"\x7d]\x7d]"

/-- A package with another placeholder. -/
def tableText : String := "[\x7b\"id\":\"$ID\",\"note\":\"$NAME\"\x7d]"

/-- A package whose placeholder is stated by an escape. -/
def chairText : String := "[\x7b\"id\":\"\\u0024ID\"\x7d]"

/-- A package with the placeholder as a key of its atom. -/
def keyText : String := "[\x7b\"id\":\"$ID\",\"$ID\":\"Lamp\"\x7d]"

/-- A package with the placeholder as a key of a storable. -/
def partText : String :=
  "[\x7b\"id\":\"$ID\",\"storables\":[\x7b\"id\":\"Light\",\"$ID\":null\x7d]\x7d]"

def pantry : FileTree where
  cwd := []
  entries := [(["t"], .dir), (["t", "packages"], .dir), (["t", "packages", "Person"], .dir),
    (["t", "packages", "id"], .dir),
    (["t", "packages", "Person", "Female.json"], .file femaleText.toUTF8),
    (["t", "packages", "Table.json"], .file tableText.toUTF8),
    (["t", "packages", "Chair.json"], .file chairText.toUTF8),
    (["t", "packages", "id.json"], .file keyText.toUTF8),
    (["t", "packages", "id", "Part.json"], .file partText.toUTF8)]

def templates : TemplateStore := ⟨⟨["t"]⟩⟩

theorem read?_of_stat (h : t.stat (s.pathOf name) = .ok (.file text.toUTF8)) :
    s.read? t name = .ok text := by
  have hfile : t.isFile (s.pathOf name) = true := by simp only [FileTree.isFile, h]
  simp only [read?, hfile, FileTree.readText_of_stat h, if_true]

theorem read?_pantry (h : (name, text) ∈ [("packages/Person/Female", femaleText),
    ("packages/Table", tableText), ("packages/Chair", chairText), ("packages/id", keyText),
    ("packages/id/Part", partText)]) : templates.read? pantry name = .ok text := by
  obtain ⟨names, hpath, hfault, hne, hplain, hdirs, hentry⟩ : ∃ names,
      templates.pathOf name = ⟨names⟩ ∧ Path.fault? ⟨names⟩ = none ∧ names ≠ [] ∧
      (∀ n ∈ names, Path.Plain n) ∧
      (∀ k < names.length, pantry.entry? ([] ++ names.take k) = some .dir) ∧
      pantry.entry? names = some (.file text.toUTF8) := by
    simp only [List.mem_cons, List.not_mem_nil, or_false, Prod.mk.injEq] at h
    rcases h with ⟨rfl, rfl⟩ | ⟨rfl, rfl⟩ | ⟨rfl, rfl⟩ | ⟨rfl, rfl⟩ | ⟨rfl, rfl⟩
    · exact ⟨["t", "packages", "Person", "Female.json"], by decide +kernel, by cbv, by decide,
        by decide, by decide, rfl⟩
    · exact ⟨["t", "packages", "Table.json"], by decide +kernel, by cbv, by decide, by decide,
        by decide, rfl⟩
    · exact ⟨["t", "packages", "Chair.json"], by decide +kernel, by cbv, by decide, by decide,
        by decide, rfl⟩
    · exact ⟨["t", "packages", "id.json"], by decide +kernel, by cbv, by decide, by decide,
        by decide, rfl⟩
    · exact ⟨["t", "packages", "id", "Part.json"], by decide +kernel, by cbv, by decide, by decide,
        by decide, rfl⟩
  -- a path of plain names through directories that are there leads to its file
  refine read?_of_stat ?_
  have hresolve : pantry.resolve ⟨names⟩ = .ok ([] ++ names) :=
    FileTree.resolve_plain hfault hne hplain hdirs
  simp only [hpath, FileTree.stat, hresolve, List.nil_append, hentry]

/-- The atom of the stencil. -/
def female : Json := .obj [("id", .str "$ID"), ("$ID-by", .str "$ID"),
  ("storables", .arr [.obj [("id", .str "Seat of $ID")]])]

theorem stencil_female : Stencil (leading "Person/Female") femaleText female where
  parse := by
    have hraw : Json.raw? femaleText = some (.arr [.obj [(some "id", .str (some "$ID")),
        (some "$ID-by", .str (some "$ID")),
        (some "storables", .arr [.obj [(some "id", .str (some "Seat of $ID"))]])]]) :=
      (Json.raw?_ofList _).trans (by cbv)
    rw [Json.parse?, hraw]
    rfl
  atom := ⟨⟨"$ID", rfl⟩, fun w hw => by
    cases hw
    exact ⟨_, rfl, fun u hu => ⟨"Seat of $ID", by rw [List.mem_singleton.1 hu]; rfl⟩⟩⟩
  id := rfl
  words := by
    have hwords : Placeholder.words femaleText.toList = List.replicate 3 Placeholder.idWord := by
      cbv
    rw [hwords]
    exact fun w hw => List.eq_of_mem_replicate hw
  written := by
    have hraw : Json.raw? (String.ofList (Json.guarded false femaleText.toList)) =
        some (.arr [.obj [(some "id", .str (some "$ID")),
          (some "$ID-by", .str (some "\\u0024ID")),
          (some "storables", .arr [.obj [(some "id", .str (some "Seat of $ID"))]])]]) :=
      (Json.raw?_ofList _).trans (by cbv)
    refine ⟨.obj [("id", .str "$ID"), ("$ID-by", .str "\\u0024ID"),
      ("storables", .arr [.obj [("id", .str "Seat of $ID")]])], ?_, rfl⟩
    rw [Json.written?, hraw]
    cbv
  keys := by
    have hleading : leading "Person/Female" = "Person" := by decide
    rw [hleading]
    exact Json.settled_of_missing (show 'P' ∈ "Person".toList by decide) (by decide) (by decide)

/-- Three instances of the stencil; the name of the package goes on behind a slash. -/
theorem package?_ids_female :
    templates.read? pantry ("packages/" ++ "Person/Female") = .ok femaleText ∧
    Stencil (leading "Person/Female") femaleText female ∧
    Unescaped (leading "Person/Female").toList ∧
    ∃ as, templates.package? pantry "Person/Female" 3 = .ok as ∧
      as.map Atom.id = ["Person", "Person#2", "Person#3"] ∧ (as.map Atom.id).Nodup := by
  have hread : templates.read? pantry ("packages/" ++ "Person/Female") = .ok femaleText :=
    read?_pantry (by simp)
  have hname : Unescaped (leading "Person/Female").toList := by
    have hleading : leading "Person/Female" = "Person" := by decide
    rw [hleading]
    decide
  obtain ⟨as, has, hids, hnodup⟩ := package?_ids hread stencil_female hname 3
  refine ⟨hread, stencil_female, hname, as, has, ?_, hnodup⟩
  rw [hids]
  decide

/-- The atoms of the other packages. -/
def table : Json := .obj [("id", .str "$ID"), ("note", .str "$NAME")]

def chair : Json := .obj [("id", .str "$ID")]

def keyed : Json := .obj [("id", .str "$ID"), ("$ID", .str "Lamp")]

def part : Json := .obj [("id", .str "$ID"),
  ("storables", .arr [.obj [("id", .str "Light"), ("$ID", .null)]])]

theorem single_others : Single tableText table ∧ Single chairText chair ∧ Single keyText keyed ∧
    Single partText part := by
  have htable : Json.raw? tableText = some (.arr [.obj [(some "id", .str (some "$ID")),
      (some "note", .str (some "$NAME"))]]) := (Json.raw?_ofList _).trans (by cbv)
  have hchair : Json.raw? chairText = some (.arr [.obj [(some "id", .str (some "$ID"))]]) :=
    (Json.raw?_ofList _).trans (by cbv)
  have hkeyed : Json.raw? keyText = some (.arr [.obj [(some "id", .str (some "$ID")),
      (some "$ID", .str (some "Lamp"))]]) := (Json.raw?_ofList _).trans (by cbv)
  have hpart : Json.raw? partText = some (.arr [.obj [(some "id", .str (some "$ID")),
      (some "storables", .arr [.obj [(some "id", .str (some "Light")), (some "$ID", .null)]])]]) :=
    (Json.raw?_ofList _).trans (by cbv)
  refine ⟨⟨?_, ⟨⟨"$ID", rfl⟩, fun w hw => by cases hw⟩, rfl⟩,
    ⟨?_, ⟨⟨"$ID", rfl⟩, fun w hw => by cases hw⟩, rfl⟩,
    ⟨?_, ⟨⟨"$ID", rfl⟩, fun w hw => by cases hw⟩, rfl⟩, ⟨?_, ⟨⟨"$ID", rfl⟩, fun w hw => ?_⟩, rfl⟩⟩
  · rw [Json.parse?, htable]
    rfl
  · rw [Json.parse?, hchair]
    rfl
  · rw [Json.parse?, hkeyed]
    rfl
  · rw [Json.parse?, hpart]
    rfl
  · cases hw
    exact ⟨_, rfl, fun u hu => ⟨"Light", by rw [List.mem_singleton.1 hu]; rfl⟩⟩

/-- The atoms of a document. -/
def atomsOf? (name : String) : Json → Except Fault (List Atom)
  | .arr vs => vs.mapM Atom.ofJson?
  | _ => .error (.templateNotList name)

/-- One instance of a package. -/
theorem package?_one {doc : Except Fault Json} (hname : "packages/" ++ p = name)
    (hread : s.read? t name = .ok text) (hlead : leading p = i)
    (hparse : parse? name { id := some i } text = doc) :
    s.package? t p 1 = doc.bind (atomsOf? name) := by
  have hid : instanceId p 1 = i := (instanceId_eq p 0).trans hlead
  simp only [package?, gather, instantiate?, hid, hname, load?_of_read? hread, hparse]
  cases doc with
  | error f => rfl
  | ok v =>
    cases v with
    | arr vs =>
      show _ = vs.mapM Atom.ofJson?
      cases hvs : vs.mapM Atom.ofJson? with
      | error f => simp only [hvs]
      | ok as => simp [hvs, Except.map]
    | _ => rfl

/-- What their texts are filled in to. -/
theorem parse?_others :
    parse? "packages/Table" { id := some "Table" } tableText =
      .error (.placeholderUnknown "packages/Table" "NAME") ∧
    parse? "packages/Chair" { id := some "Chair" } chairText = .ok (.arr [chair]) ∧
    parse? "packages/id" { id := some "id" } keyText = .ok (.arr [.obj [("id", .str "Lamp")]]) ∧
    parse? "packages/id/Part" { id := some "id" } partText =
      .ok (.arr [.obj [("id", .str "id"), ("storables", .arr [.obj [("id", .null)]])]]) := by
  refine ⟨?_, (parse?_ofList _ _ _).trans (by cbv), (parse?_ofList _ _ _).trans (by cbv),
    (parse?_ofList _ _ _).trans (by cbv)⟩
  have hcut : Placeholder.cut tableText.toList =
      "[\x7b\"id\":\"".toList.map .char ++ .token ['I', 'D'] ::
        ("\",\"note\":\"".toList.map .char ++
          .token ['N', 'A', 'M', 'E'] :: "\"\x7d]".toList.map .char) := by cbv
  rw [parse?, Placeholder.expand, hcut]
  rfl

/-- **A package of one atom that is no stencil** can fail, or can give another id: another
placeholder is refused, a placeholder that an escape states stays, and one in a key can give the
field a new name that is in use. -/
theorem package?_of_single :
    (Single tableText table ∧ templates.read? pantry "packages/Table" = .ok tableText ∧
      templates.package? pantry "Table" 1 =
        .error (.placeholderUnknown "packages/Table" "NAME")) ∧
    (Single chairText chair ∧ templates.read? pantry "packages/Chair" = .ok chairText ∧
      ∃ a, templates.package? pantry "Chair" 1 = .ok [a] ∧ a.id = "$ID") ∧
    (Single keyText keyed ∧ templates.read? pantry "packages/id" = .ok keyText ∧
      ∃ a, templates.package? pantry "id" 1 = .ok [a] ∧ a.id = "Lamp") ∧
    Single partText part ∧ templates.read? pantry "packages/id/Part" = .ok partText ∧
      templates.package? pantry "id/Part" 1 = .error (.noId .storable) := by
  obtain ⟨htable, hchair, hkeyed, hpart⟩ := single_others
  obtain ⟨hparseTable, hparseChair, hparseKey, hparsePart⟩ := parse?_others
  have hreadTable : templates.read? pantry "packages/Table" = .ok tableText :=
    read?_pantry (by simp)
  have hreadChair : templates.read? pantry "packages/Chair" = .ok chairText :=
    read?_pantry (by simp)
  have hreadKey : templates.read? pantry "packages/id" = .ok keyText := read?_pantry (by simp)
  have hreadPart : templates.read? pantry "packages/id/Part" = .ok partText :=
    read?_pantry (by simp)
  refine ⟨⟨htable, hreadTable, ?_⟩, ⟨hchair, hreadChair, ?_⟩, ⟨hkeyed, hreadKey, ?_⟩, hpart,
    hreadPart, ?_⟩
  · exact package?_one (by decide) hreadTable (by decide) hparseTable
  · exact ⟨_, (package?_one (by decide) hreadChair (by decide) hparseChair).trans rfl, rfl⟩
  · exact ⟨_, (package?_one (by decide) hreadKey (by decide) hparseKey).trans rfl, rfl⟩
  · exact package?_one (by decide) hreadPart (by decide) hparsePart

end TemplateStore

end Stagecraft
