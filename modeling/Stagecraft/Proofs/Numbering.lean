import Mathlib.Data.List.Nodup
import Mathlib.Logic.Relation
import Stagecraft.Proofs.Footprint

/-!
# How branches get their numbers

A compiler keeps a ledger: the number of branches so far, the branch of each name, and the
lengths of the branches that are written down. Move by move it comes to a name, which it numbers
or passes over, and writes a branch down. A name is entered in the ledger before the branches
behind it, and its length only after them.

* `Compiler.Ledger`, `Compiler.Moves`: the ledger, and one move with it.
* `Ledger.Dense`: names and numbers belong to each other, one to one and without gaps.
* `Compiler.Sound`: what holds at each moment; `Moves.grows`, `Sound.dense`.
* `Compiler.reaches_work`: a compiler at work makes these moves, up to the end.
* `Compiler.numbering`: **the ledger is dense at every moment** of a compilation, and each branch
  is written down once.
-/

namespace Stagecraft

open Relation Stage

namespace Compiler

/-! ## Moves -/

/-- What a compiler has noted of the branches so far. -/
structure Ledger where
  /-- The number of branches. -/
  count : Nat
  /-- The branch of each name. -/
  branches : List (String × String)
  /-- The lengths of branches. -/
  durations : List (String × Float)

namespace Ledger

variable {α : Type}

/-- The entries with a value for a key: in its place, or behind the others. -/
def put (es : List (String × α)) (k : String) (v : α) : List (String × α) :=
  match es with
  | [] => [(k, v)]
  | e :: es => if e.1 = k then (k, v) :: es else e :: put es k v

theorem put_of_not_mem {es : List (String × α)} {k : String} (v : α) (h : k ∉ es.map (·.1)) :
    put es k v = es ++ [(k, v)] := by
  induction es with
  | nil => rfl
  | cons e es ih =>
    rw [List.map_cons, List.mem_cons, not_or] at h
    rw [put, if_neg (Ne.symm h.1), ih h.2, List.cons_append]

/-- The names that have a branch. -/
def names (l : Ledger) : List String := l.branches.map (·.1)

/-- A name gets the next number. -/
def enter (l : Ledger) (name : String) : Ledger :=
  { l with count := l.count + 1, branches := put l.branches name (branchId (l.count + 1)) }

/-- A branch gets its length. -/
def record (l : Ledger) (branch : String) (length : Float) : Ledger :=
  { l with durations := put l.durations branch length }

/-- **Names and numbers belong to each other**, one to one and without gaps, and the start has
number one. Only branches have lengths. -/
structure Dense (l : Ledger) (start : String) : Prop where
  nodup : l.names.Nodup
  ids : ∀ b, (∃ n, (n, b) ∈ l.branches) ↔ ∃ i, 1 ≤ i ∧ i ≤ l.count ∧ b = branchId i
  inj : ∀ n n' b, (n, b) ∈ l.branches → (n', b) ∈ l.branches → n = n'
  first : 0 < l.count → (start, branchId 1) ∈ l.branches
  lengths : ∀ b x, (b, x) ∈ l.durations → ∃ n, (n, b) ∈ l.branches

end Ledger

/-- A moment of a compilation: the ledger, the scene so far, and what is left to do. -/
structure Moment where
  ledger : Ledger
  scene : Scene
  todo : List (Errand Step)

/-- **The moves of a compiler.** A name that has a branch is passed over. Another one gets the next
number first, and is refused if the scene lacks its branch. -/
inductive Moves (c : Compiler) : Moment → Moment → Prop
  | pass {l s n b todo} : l.branches.lookup n = some b → Moves c ⟨l, s, .go n :: todo⟩ ⟨l, s, todo⟩
  | enter {l s n todo} : l.branches.lookup n = none → enter? s (branchId (l.count + 1)) = .ok () →
      Moves c ⟨l, s, .go n :: todo⟩ ⟨l.enter n, s, c.story.body n ++ todo⟩
  | refuse {l s n f todo} : l.branches.lookup n = none →
      enter? s (branchId (l.count + 1)) = .error f →
      Moves c ⟨l, s, .go n :: todo⟩ ⟨l.enter n, s, .note (.fails f) :: todo⟩
  | write {l s n b todo} : l.branches.lookup n = some b →
      Moves c ⟨l, s, .note (.write n) :: todo⟩
        ⟨l.record b (c.timelineOf n).total, c.write l.names s n, todo⟩

/-- The next move writes the branch `b` down. -/
def Moment.Writes (x : Moment) (b : String) : Prop :=
  ∃ n todo, x.todo = .note (.write n) :: todo ∧ x.ledger.branches.lookup n = some b

/-- The ledger of what a compiler remembers. -/
def Memo.ledger (m : Memo) : Ledger where
  count := m.heads.length
  branches := m.heads.map fun n => (n, branchOf m.heads n)
  durations := m.durations

/-- A compilation begins with an empty ledger, whatever is remembered of the one before. -/
def outset (c : Compiler) (m : Memo) (s : Scene) : Moment :=
  ⟨m.reset.ledger, s, [.go c.story.start.name]⟩

variable {c : Compiler} {m m' : Memo} {s : Scene} {x y z : Moment} {n b : String}
  {todo : List (Errand Step)}

/-- **What comes next is settled.** -/
theorem Moves.unique (h : c.Moves x y) (h' : c.Moves x z) : y = z := by
  cases h with
  | pass hb => cases h' with
    | pass => rfl
    | enter hn | refuse hn => cases hb.symm.trans hn
  | enter hn he => cases h' with
    | pass hb => cases hb.symm.trans hn
    | enter => rfl
    | refuse _ he' => cases he.symm.trans he'
  | refuse hn he => cases h' with
    | pass hb => cases hb.symm.trans hn
    | enter _ he' => cases he.symm.trans he'
    | refuse _ he' => cases he.symm.trans he'; rfl
  | write hb => cases h' with
    | write hb' => cases hb.symm.trans hb'; rfl

/-! ## The ledger of a memory -/

namespace Memo

theorem names_ledger (m : Memo) : m.ledger.names = m.heads := by
  simp [Ledger.names, ledger, Function.comp_def]

theorem mem_ledger_iff : (n, b) ∈ m.ledger.branches ↔ n ∈ m.heads ∧ b = branchOf m.heads n := by
  simp only [ledger, List.mem_map, Prod.mk.injEq]
  constructor
  · rintro ⟨n, hn, rfl, rfl⟩
    exact ⟨hn, rfl⟩
  · rintro ⟨hn, rfl⟩
    exact ⟨n, hn, rfl, rfl⟩

theorem lookup_ledger (h : n ∈ m.heads) :
    m.ledger.branches.lookup n = some (branchOf m.heads n) := lookup_map_self h

theorem lookup_ledger_eq_none (h : n ∉ m.heads) : m.ledger.branches.lookup n = none := by
  rw [List.lookup_eq_none_iff]
  intro e he
  obtain ⟨hn, -⟩ := mem_ledger_iff.1 (show (e.1, e.2) ∈ m.ledger.branches from he)
  exact bne_iff_ne.2 fun heq => h (heq ▸ hn)

theorem lookup_ledger_iff :
    m.ledger.branches.lookup n = some b ↔ n ∈ m.heads ∧ b = branchOf m.heads n := by
  by_cases h : n ∈ m.heads
  · rw [lookup_ledger h]
    simp [h, eq_comm]
  · rw [lookup_ledger_eq_none h]
    simp [h]

theorem branchOf_enter (h : n ∉ m.heads) :
    branchOf (m.enter n).heads n = branchId (m.heads.length + 1) := by
  simp [branchOf, enter, List.idxOf_append, h]

theorem branches_enter (h : n ∉ m.heads) : (m.enter n).ledger.branches =
    m.ledger.branches ++ [(n, branchId (m.heads.length + 1))] := by
  have hold : ∀ k ∈ m.heads, (k, branchOf (m.enter n).heads k) = (k, branchOf m.heads k) :=
    fun k hk => congrArg (Prod.mk k) (branchOf_append hk)
  have hsplit : (m.enter n).ledger.branches =
      m.heads.map (fun k => (k, branchOf (m.enter n).heads k)) ++
        [(n, branchOf (m.enter n).heads n)] := List.map_append
  rw [hsplit, branchOf_enter h, List.map_congr_left hold]
  rfl

/-- A new name is put behind the others. -/
theorem ledger_enter (h : n ∉ m.heads) : m.ledger.enter n = (m.enter n).ledger := by
  have hnew : n ∉ m.ledger.branches.map (·.1) := by
    rw [show m.ledger.branches.map (·.1) = m.heads from names_ledger m]
    exact h
  have hcount : (m.enter n).ledger.count = m.ledger.count + 1 := List.length_append
  have hentry : Ledger.put m.ledger.branches n (branchId (m.ledger.count + 1)) =
      (m.enter n).ledger.branches := by
    rw [Ledger.put_of_not_mem _ hnew, branches_enter h]
    rfl
  rw [Ledger.enter, hentry, ← hcount]
  rfl

/-- A new length is put behind the others. -/
theorem ledger_record (x : Float) (h : branchOf m.heads n ∉ m.durations.map (·.1)) :
    m.ledger.record (branchOf m.heads n) x = (m.record n x).ledger := by
  have hput : Ledger.put m.ledger.durations (branchOf m.heads n) x = _ := Ledger.put_of_not_mem x h
  rw [Ledger.record, hput]
  rfl

end Memo

/-! ## What holds at each moment -/

/-- The names whose branches are left to be written down. -/
def unwritten (todo : List (Errand Step)) : List String := todo.filterMap fun
  | .note (.write n) => some n
  | _ => none

/-- **What holds at each moment** of a compilation. What is left to be written down has its number,
and no length yet. -/
structure Sound (c : Compiler) (m : Memo) (todo : List (Errand Step)) : Prop where
  nodup : m.heads.Nodup
  start : m.heads = [] ∧ todo = [.go c.story.start.name] ∨
    m.heads.head? = some c.story.start.name
  entered : ∀ n, .note (.enter n) ∉ todo
  once : (unwritten todo).Nodup
  numbered : ∀ n ∈ unwritten todo, n ∈ m.heads ∧ branchOf m.heads n ∉ m.durations.map (·.1)
  lengths : ∀ b ∈ m.durations.map (·.1), ∃ n ∈ m.heads, b = branchOf m.heads n

theorem sound_outset (c : Compiler) : c.Sound .empty [.go c.story.start.name] where
  nodup := List.nodup_nil
  start := .inl ⟨rfl, rfl⟩
  entered := fun n hn => by simp at hn
  once := List.nodup_nil
  numbered := fun n hn => by cases hn
  lengths := fun b hb => by cases hb

/-- Behind its entry a branch is written down once at most, and enters no branch by itself. -/
theorem unwritten_body (c : Compiler) (n : String) :
    (unwritten (c.story.body n)).Sublist [n] ∧ ∀ k, .note (.enter k) ∉ c.story.body n := by
  cases hp : c.story.opening? n with
  | none =>
    have hbody : c.story.body n = [] := by rw [Story.body, Story.branch, hp]; rfl
    rw [hbody]
    exact ⟨List.nil_sublist _, fun k hk => by cases hk⟩
  | some p =>
    constructor
    · rw [Story.body_of_opening? hp]
      cases (c.story.timeline p).ending with
      | stop => exact List.Sublist.refl _
      | broken f => exact List.nil_sublist _
      | choice r =>
        -- the routes of a prompt are names to go to, or faults
        have hroutes : unwritten (c.story.routes r) = [] := by
          rw [unwritten, List.filterMap_eq_nil_iff]
          intro e he
          obtain ⟨l, -, rfl⟩ := List.mem_map.1 he
          cases c.story.follow? r l <;> rfl
        have hsplit : unwritten (c.story.routes r ++ [.note (.write n)]) =
            unwritten (c.story.routes r) ++ [n] := List.filterMap_append
        rw [hsplit, hroutes]
        exact List.Sublist.refl _
    · obtain ⟨rest, hb, hno⟩ := Story.branch_announces hp
      rw [Story.body, hb]
      exact hno

namespace Sound

/-- **The ledger is dense.** -/
theorem dense (h : c.Sound m todo) : m.ledger.Dense c.story.start.name where
  nodup := by
    rw [Memo.names_ledger]
    exact h.nodup
  ids := fun b => by
    simp only [Memo.mem_ledger_iff]
    constructor
    · rintro ⟨n, hn, rfl⟩
      exact ⟨_, Nat.succ_pos _, List.idxOf_lt_length_of_mem hn, rfl⟩
    · -- the number of a name is one more than its place
      rintro ⟨i, h1, h2, rfl⟩
      have hlt : i - 1 < m.heads.length := by
        have h2 : i ≤ m.heads.length := h2
        omega
      refine ⟨m.heads[i - 1], List.getElem_mem hlt, ?_⟩
      rw [branchOf_getElem h.nodup hlt, Nat.sub_add_cancel h1]
  inj := fun n n' b hn hn' => by
    rw [Memo.mem_ledger_iff] at hn hn'
    exact branchOf_inj hn.1 (hn.2.symm.trans hn'.2)
  first := fun hpos => by
    rcases h.start with ⟨hnil, -⟩ | hhead
    · have hzero : m.ledger.count = 0 := congrArg List.length hnil
      omega
    · obtain ⟨rest, hrest⟩ := List.head?_eq_some_iff.1 hhead
      rw [Memo.mem_ledger_iff, hrest]
      exact ⟨List.mem_cons_self, by simp [branchOf]⟩
  lengths := fun b x hb => by
    obtain ⟨n, hn, hbn⟩ := h.lengths b (List.mem_map_of_mem hb)
    exact ⟨n, Memo.mem_ledger_iff.2 ⟨hn, hbn⟩⟩

theorem head_of_mem (h : c.Sound m todo) (hn : n ∈ m.heads) :
    m.heads.head? = some c.story.start.name := by
  rcases h.start with ⟨hnil, -⟩ | hhead
  · rw [hnil] at hn
    cases hn
  · exact hhead

/-- A name with a number is passed over. -/
theorem pass (h : c.Sound m (.go n :: todo)) (hn : n ∈ m.heads) : c.Sound m todo where
  nodup := h.nodup
  start := .inr (h.head_of_mem hn)
  entered := fun k hk => h.entered k (List.mem_cons_of_mem _ hk)
  once := h.once
  numbered := h.numbered
  lengths := h.lengths

/-- A name without a number gets the next one, before `next` is done. -/
theorem enter {next : List (Errand Step)} (h : c.Sound m (.go n :: todo)) (hn : n ∉ m.heads)
    (hw : (unwritten next).Sublist [n]) (hno : ∀ k, .note (.enter k) ∉ next) :
    c.Sound (m.enter n) (next ++ todo) := by
  have hold : ∀ k ∈ m.heads, branchOf (m.enter n).heads k = branchOf m.heads k := fun k hk =>
    branchOf_append hk
  have hself : n ∈ (m.enter n).heads := List.mem_append_right _ (List.mem_singleton_self n)
  have hsplit : unwritten (next ++ todo) = unwritten next ++ unwritten todo :=
    List.filterMap_append
  have hleft : ∀ k ∈ unwritten todo, k ∈ m.heads ∧ branchOf m.heads k ∉ m.durations.map (·.1) :=
    h.numbered
  exact {
    nodup := by
      rw [Memo.enter, List.nodup_append]
      refine ⟨h.nodup, List.nodup_singleton n, fun k hk k' hk' heq => hn ?_⟩
      rw [← List.mem_singleton.1 hk', ← heq]
      exact hk
    start := by
      right
      rcases h.start with ⟨hnil, htodo⟩ | hhead
      · -- the first name is that of the start
        cases htodo
        rw [Memo.enter, hnil]
        rfl
      · rw [Memo.enter, List.head?_append, hhead]
        rfl
    entered := by
      intro k hk
      rcases List.mem_append.1 hk with hk | hk
      · exact hno k hk
      · exact h.entered k (List.mem_cons_of_mem _ hk)
    once := by
      rw [hsplit, List.nodup_append]
      refine ⟨(List.nodup_singleton n).sublist hw, h.once, fun k hk k' hk' heq => hn ?_⟩
      rw [← List.mem_singleton.1 (hw.subset hk), heq]
      exact (hleft k' hk').1
    numbered := by
      intro k hk
      rw [hsplit] at hk
      rcases List.mem_append.1 hk with hk | hk
      · rw [List.mem_singleton.1 (hw.subset hk)]
        refine ⟨hself, fun hd => hn ?_⟩
        -- a branch with a length is that of an earlier name
        obtain ⟨k', hk', heq⟩ := h.lengths _ hd
        rw [← hold k' hk'] at heq
        rw [branchOf_inj hself heq]
        exact hk'
      · obtain ⟨hmem, hd⟩ := hleft k hk
        exact ⟨List.mem_append_left _ hmem, by rw [hold k hmem]; exact hd⟩
    lengths := by
      intro b hb
      obtain ⟨k, hk, rfl⟩ := h.lengths b hb
      exact ⟨k, List.mem_append_left _ hk, (hold k hk).symm⟩ }

/-- A name without a number gets it also if it is refused. -/
theorem refuse (h : c.Sound m (.go n :: todo)) (hn : n ∉ m.heads) (f : Fault) :
    c.Sound (m.enter n) (.note (.fails f) :: todo) := by
  have hrest : c.Sound (m.enter n) ([.note (.fails f)] ++ todo) :=
    h.enter hn (List.nil_sublist _) (by simp)
  exact hrest

/-- A branch that is written down gets its length, and is not written down again. -/
theorem write (h : c.Sound m (.note (.write n) :: todo)) (x : Float) :
    n ∈ m.heads ∧ branchOf m.heads n ∉ m.durations.map (·.1) ∧ c.Sound (m.record n x) todo := by
  have honce : (n :: unwritten todo).Nodup := h.once
  obtain ⟨hn, hd⟩ := h.numbered n List.mem_cons_self
  have hkeys : (m.record n x).durations.map (·.1) = m.durations.map (·.1) ++ [branchOf m.heads n] :=
    List.map_append
  refine ⟨hn, hd, h.nodup, .inr (h.head_of_mem hn), fun k hk => h.entered k
    (List.mem_cons_of_mem _ hk), (List.nodup_cons.1 honce).2, fun k hk => ?_, fun b hb => ?_⟩
  · -- two names with one branch are one name, and it is not written twice
    obtain ⟨hmem, hk'⟩ := h.numbered k (List.mem_cons_of_mem _ hk)
    refine ⟨hmem, ?_⟩
    rw [hkeys, List.mem_append, not_or, List.mem_singleton]
    refine ⟨hk', fun heq => (List.nodup_cons.1 honce).1 ?_⟩
    rw [← branchOf_inj hmem heq]
    exact hk
  · rw [hkeys, List.mem_append, List.mem_singleton] at hb
    rcases hb with hb | rfl
    · exact h.lengths b hb
    · exact ⟨n, hn, rfl⟩

end Sound

/-! ## What a move keeps -/

/-- **A memory that has grown**: nothing is forgotten, and nothing is numbered again. -/
structure Memo.Grows (m m' : Memo) : Prop where
  heads : m.heads <+: m'.heads
  durations : m.durations <+: m'.durations

namespace Memo.Grows

theorem refl (m : Memo) : m.Grows m := ⟨List.prefix_rfl, List.prefix_rfl⟩

theorem trans {m'' : Memo} (h : m.Grows m') (h' : m'.Grows m'') : m.Grows m'' :=
  ⟨h.heads.trans h'.heads, h.durations.trans h'.durations⟩

theorem branchOf_eq (h : m.Grows m') (hn : n ∈ m.heads) : branchOf m'.heads n = branchOf m.heads n := by
  obtain ⟨rest, hrest⟩ := h.heads
  rw [← hrest, branchOf_append hn]

/-- A branch keeps its id. -/
theorem lookup (h : m.Grows m') (hb : m.ledger.branches.lookup n = some b) :
    m'.ledger.branches.lookup n = some b := by
  obtain ⟨hn, rfl⟩ := lookup_ledger_iff.1 hb
  exact lookup_ledger_iff.2 ⟨h.heads.subset hn, (h.branchOf_eq hn).symm⟩

end Memo.Grows

/-- **One move** keeps what holds at each moment. -/
theorem Moves.grows (h : c.Moves x y) (hx : x.ledger = m.ledger) (hs : c.Sound m x.todo) :
    ∃ m', y.ledger = m'.ledger ∧ c.Sound m' y.todo ∧ m.Grows m' := by
  have hnew : ∀ {n}, m.ledger.branches.lookup n = none → n ∉ m.heads := fun hnone hmem => by
    rw [Memo.lookup_ledger hmem] at hnone
    cases hnone
  -- each move is a step of the memory, by which it gets one more name or one more length
  cases h with
  | pass hb =>
    obtain rfl := hx
    exact ⟨m, rfl, hs.pass (Memo.lookup_ledger_iff.1 hb).1, .refl m⟩
  | @enter _ _ n _ hb _ =>
    obtain rfl := hx
    obtain ⟨hw, hno⟩ := unwritten_body c n
    exact ⟨m.enter n, Memo.ledger_enter (hnew hb), hs.enter (hnew hb) hw hno,
      List.prefix_append _ _, List.prefix_rfl⟩
  | @refuse _ _ n f _ hb _ =>
    obtain rfl := hx
    exact ⟨m.enter n, Memo.ledger_enter (hnew hb), hs.refuse (hnew hb) f, List.prefix_append _ _,
      List.prefix_rfl⟩
  | @write _ _ n b _ hb =>
    obtain rfl := hx
    obtain ⟨hn, hd, hrest⟩ := hs.write (c.timelineOf n).total
    obtain ⟨-, rfl⟩ := Memo.lookup_ledger_iff.1 hb
    exact ⟨m.record n _, Memo.ledger_record _ hd, hrest, List.prefix_rfl, List.prefix_append _ _⟩

/-- **All moves** keep it. -/
theorem grows_of_moves (h : ReflTransGen c.Moves x y) (hx : x.ledger = m.ledger)
    (hs : c.Sound m x.todo) : ∃ m', y.ledger = m'.ledger ∧ c.Sound m' y.todo ∧ m.Grows m' := by
  induction h with
  | refl => exact ⟨m, hx, hs, .refl m⟩
  | tail _ hmove ih =>
    obtain ⟨m₁, hm₁, hs₁, hg₁⟩ := ih
    obtain ⟨m₂, hm₂, hs₂, hg₂⟩ := hmove.grows hm₁ hs₁
    exact ⟨m₂, hm₂, hs₂, hg₁.trans hg₂⟩

/-- A branch that is written down has its length afterwards. -/
theorem Moves.recorded (h : c.Moves x y) (hw : x.Writes b) (hx : x.ledger = m.ledger)
    (hs : c.Sound m x.todo) : b ∈ y.ledger.durations.map (·.1) := by
  obtain ⟨n, rest, htodo, hb⟩ := hw
  cases h with
  | pass | enter | refuse => cases htodo
  | write hb' =>
    obtain rfl := hx
    cases htodo
    cases hb.symm.trans hb'
    obtain ⟨-, rfl⟩ := Memo.lookup_ledger_iff.1 hb
    obtain ⟨-, hd, -⟩ := hs.write (c.timelineOf n).total
    rw [Memo.ledger_record _ hd]
    simp [Memo.ledger, Memo.record]

/-- **A branch with a length** is not written down. -/
theorem Sound.not_writes (hx : x.ledger = m.ledger) (hs : c.Sound m x.todo)
    (hb : b ∈ m.durations.map (·.1)) : ¬ x.Writes b := by
  rintro ⟨n, rest, htodo, hlookup⟩
  rw [hx] at hlookup
  obtain ⟨-, rfl⟩ := Memo.lookup_ledger_iff.1 hlookup
  rw [htodo] at hs
  exact (hs.numbered n List.mem_cons_self).2 hb

/-- A move leaves a branch as it is that it does not write down. -/
theorem Moves.untouched (h : c.Moves x y) (hx : x.ledger = m.ledger) (hw : ¬ x.Writes b) :
    Untouched x.scene y.scene b := by
  cases h with
  | pass | enter | refuse => exact ⟨rfl, rfl⟩
  | @write _ s n b' todo hb =>
    obtain rfl := hx
    have hne : b ≠ b' := fun heq => hw ⟨n, todo, rfl, heq ▸ hb⟩
    obtain ⟨-, rfl⟩ := Memo.lookup_ledger_iff.1 hb
    rw [Memo.names_ledger]
    have hps : patternId ≠ stepId := by decide
    constructor
    · rw [storable?_write, if_neg fun h => hps h.2, if_neg fun h => hne h.1]
    · rw [storable?_write, if_neg fun h => hne (durationId_inj h.1), if_neg fun h => hps h.2.symm]

/-! ## Whole compilations -/

/-- A moment without a further move, at which the work has ended. -/
def Moment.Over (x : Moment) : Except Fault Unit → Prop
  | .ok () => x.todo = []
  | .error f => ∃ todo, x.todo = .note (.fails f) :: todo

/-- **A compiler at work** makes moves up to the end of its work. -/
theorem reaches_work (m : Memo) (s : Scene) (todo : List (Errand Step)) (h : c.Sound m todo) :
    ∃ y, ReflTransGen c.Moves ⟨m.ledger, s, todo⟩ y ∧ y.ledger = (c.work m s todo).1.ledger ∧
      c.Sound (c.work m s todo).1 y.todo ∧ y.scene = (c.work m s todo).2.1 ∧
      y.Over (c.work m s todo).2.2 := by
  fun_induction work c m s todo with
  | case1 m s => exact ⟨_, .refl, rfl, h, rfl, rfl⟩
  | case2 m s n todo => exact absurd List.mem_cons_self (h.entered n)
  | case3 m s n todo ih =>
    obtain ⟨hn, hd, hrest⟩ := h.write (c.timelineOf n).total
    -- the ledger of the memory moves with it
    obtain ⟨y, hy, hend⟩ := ih hrest
    have hmove : c.Moves ⟨m.ledger, s, .note (.write n) :: todo⟩ _ := .write (Memo.lookup_ledger hn)
    rw [Memo.ledger_record _ hd, Memo.names_ledger] at hmove
    exact ⟨y, .head hmove hy, hend⟩
  | case4 m s f todo => exact ⟨_, .refl, rfl, h, rfl, todo, rfl⟩
  | case5 m s n todo hn ih =>
    obtain ⟨y, hy, hend⟩ := ih (h.pass hn)
    exact ⟨y, .head (.pass (Memo.lookup_ledger hn)) hy, hend⟩
  | case6 m s n todo hn he ih =>
    obtain ⟨hw, hno⟩ := unwritten_body c n
    obtain ⟨y, hy, hend⟩ := ih (h.enter hn hw hno)
    rw [Memo.branchOf_enter hn] at he
    rw [← Memo.ledger_enter hn] at hy
    exact ⟨y, .head (.enter (Memo.lookup_ledger_eq_none hn) he) hy, hend⟩
  | case7 m s n todo hn f he =>
    rw [Memo.branchOf_enter hn] at he
    rw [← Memo.ledger_enter hn]
    exact ⟨_, .single (.refuse (Memo.lookup_ledger_eq_none hn) he), rfl,
      h.refuse hn f, rfl, todo, rfl⟩

/-- At the end there is no move left. -/
theorem Moment.Over.not_moves {done : Except Fault Unit} (h : x.Over done) : ¬ c.Moves x y := by
  intro hmove
  cases done with
  | ok _ => cases hmove <;> cases h
  | error f =>
    obtain ⟨todo, htodo⟩ := h
    cases hmove <;> cases htodo

/-- **Each moment of a compilation** leads to its end. -/
theorem Moment.Over.reached {done : Except Fault Unit} (h : y.Over done)
    (hy : ReflTransGen c.Moves x y) (hz : ReflTransGen c.Moves x z) : ReflTransGen c.Moves z y := by
  have hunique : Relator.RightUnique c.Moves := fun _ _ _ => Moves.unique
  rcases ReflTransGen.total_of_right_unique hunique hy hz with hyz | hzy
  · rcases ReflTransGen.cases_head hyz with rfl | ⟨w, hw, -⟩
    · exact .refl
    · exact absurd hw h.not_moves
  · exact hzy

/-- A compilation is the work on a whole story, with nothing remembered. -/
theorem build_eq_work (c : Compiler) (m : Memo) (s : Scene) :
    (c.build m s).scene = (c.work .empty s [.go c.story.start.name]).2.1 ∧
      (c.build m s).result = (c.work .empty s [.go c.story.start.name]).2.2.map fun _ =>
        (c.work .empty s [.go c.story.start.name]).1.compiled := by
  unfold build
  rw [show m.reset = .empty from rfl]
  rcases c.work .empty s [.go c.story.start.name] with ⟨m', s', _ | _⟩ <;> exact ⟨rfl, rfl⟩

/-- What is kept of a table for some keys. -/
theorem lookup_filterMap {ns : List String} {key : String → String} {es : List (String × Float)} :
    (ns.filterMap fun n => (es.lookup (key n)).map (key n, ·)).lookup b =
      if b ∈ ns.map key then es.lookup b else none := by
  induction ns with
  | nil => rfl
  | cons n ns ih =>
    rw [List.filterMap_cons, List.map_cons]
    by_cases hb : b = key n
    · subst hb
      -- the first key decides, and a later one that is equal gives the same
      rw [if_pos List.mem_cons_self]
      cases he : es.lookup (key n) with
      | none => simpa [he] using ih
      | some x => simp
    · have hmem : b ∈ key n :: ns.map key ↔ b ∈ ns.map key := by simp [hb]
      simp only [hmem]
      rw [← ih]
      cases es.lookup (key n) with
      | none => rfl
      | some x => simp [List.lookup_cons, beq_eq_false_iff_ne.2 hb]

/-- **What a compilation gives** is what its ledger has in the end. -/
theorem Sound.lookup_compiled (h : c.Sound m todo) (b : String) :
    m.compiled.durations.lookup b = m.ledger.durations.lookup b := by
  rw [Memo.compiled, lookup_filterMap]
  split
  · rfl
  · rename_i hb
    -- only branches have lengths
    symm
    rw [List.lookup_eq_none_iff]
    intro e he
    refine bne_iff_ne.2 fun heq => hb ?_
    obtain ⟨n, hn, hbn⟩ := h.lengths b (heq ▸ List.mem_map_of_mem he)
    rw [hbn]
    exact List.mem_map_of_mem hn

/-- **How a compilation ends**: with the fault that is next, or with nothing left to do and what
the ledger has: one branch for each name, and a length for each branch. -/
inductive Moment.Gives (x : Moment) : Except Fault Compiled → Prop
  | fails {f todo} : x.todo = .note (.fails f) :: todo → Gives x (.error f)
  | ok {out} : x.todo = [] → out.branches = x.ledger.branches →
      (∀ b, out.durations.lookup b = x.ledger.durations.lookup b) →
      out.durations.map (·.1) = out.branches.map (·.2) →
      out.durations.length = out.branches.length → Gives x (.ok out)

/-- **A compilation makes moves up to its end.** -/
theorem reaches_build (c : Compiler) (m : Memo) (s : Scene) :
    ∃ y done, ReflTransGen c.Moves (c.outset m s) y ∧ y.Over done ∧
      y.scene = (c.build m s).scene ∧ y.Gives (c.build m s).result := by
  obtain ⟨y, hy, hledger, hs, hscene, hover⟩ :=
    reaches_work .empty s [.go c.story.start.name] c.sound_outset
  obtain ⟨hbs, hbr⟩ := build_eq_work c m s
  refine ⟨y, _, hy, hover, hscene.trans hbs.symm, ?_⟩
  cases hd : (c.work .empty s [.go c.story.start.name]).2.2 with
  | error f =>
    rw [hd] at hover hbr
    obtain ⟨todo, htodo⟩ := hover
    rw [hbr]
    exact .fails htodo
  | ok _ =>
    rw [hd] at hover hbr
    generalize hout : (c.work .empty s [.go c.story.start.name]).1.compiled = out at hbr
    have hrun : (c.run s).2 = .ok out := (build_eq c m s).2.symm.trans hbr
    -- what is compiled gives each branch one length, so the counts agree
    have hkeys : out.durations.map (·.1) = out.branches.map (·.2) := by
      rw [(run_of_ok hrun).1]
      simp [compiled, Function.comp_def]
    have hlen := congrArg List.length hkeys
    rw [List.length_map, List.length_map] at hlen
    rw [hbr]
    refine .ok hover ?_ (fun b => ?_) hkeys hlen
    · rw [← hout, hledger]
      rfl
    · rw [← hout, hledger]
      exact hs.lookup_compiled b

/-- **One branch for each name, numbered without gaps.** At every moment of a compilation, whether
it succeeds or fails, the ledger is dense, and a name keeps its branch from then on. Only a move
that writes a branch down changes its records, and no branch has two such moves. All moments lead
to one end, which has the scene and the result of the compilation. -/
theorem numbering (c : Compiler) (m : Memo) (s : Scene) :
    (∀ x, ReflTransGen c.Moves (c.outset m s) x →
      x.ledger.Dense c.story.start.name ∧
      (∀ y n b, ReflTransGen c.Moves x y → x.ledger.branches.lookup n = some b →
        y.ledger.branches.lookup n = some b) ∧
      ∀ y b, c.Moves x y → (¬ x.Writes b → Untouched x.scene y.scene b) ∧
        (x.Writes b → ∀ z, ReflTransGen c.Moves y z → ¬ z.Writes b)) ∧
    ∃ y, ReflTransGen c.Moves (c.outset m s) y ∧ y.scene = (c.build m s).scene ∧
      y.Gives (c.build m s).result ∧
      ∀ x, ReflTransGen c.Moves (c.outset m s) x → ReflTransGen c.Moves x y := by
  constructor
  · intro x hx
    obtain ⟨mx, hmx, hsx, -⟩ := grows_of_moves hx rfl c.sound_outset
    refine ⟨hmx ▸ hsx.dense, fun y n b hy hb => ?_, fun y b hmove => ⟨hmove.untouched hmx, ?_⟩⟩
    · obtain ⟨my, hmy, -, hg⟩ := grows_of_moves hy hmx hsx
      rw [hmx] at hb
      rw [hmy]
      exact hg.lookup hb
    · intro hw z hz
      obtain ⟨my, hmy, hsy, -⟩ := hmove.grows hmx hsx
      obtain ⟨mz, hmz, hsz, hg⟩ := grows_of_moves hz hmy hsy
      -- the branch has its length from the first time on
      have hrecorded := hmove.recorded hw hmx hsx
      rw [hmy] at hrecorded
      exact hsz.not_writes hmz (List.map_subset _ hg.durations.subset hrecorded)
  · obtain ⟨y, done, hy, hover, hscene, hgives⟩ := reaches_build c m s
    exact ⟨y, hy, hscene, hgives, fun x hx => hover.reached hy hx⟩

/-- The prompt and its choice get the numbers one and two. -/
theorem numbering_fork : ∃ y, ReflTransGen fork.Moves (fork.outset .empty (bare 2)) y ∧
    y.todo = [] ∧ y.ledger.branches = [("a", "Dialog-Branch#1"), ("b", "Dialog-Branch#2")] ∧
      y.ledger.Dense "a" := by
  obtain ⟨hall, y, hy, -, hgives, -⟩ := numbering fork .empty (bare 2)
  rw [(build_eq fork .empty (bare 2)).2, run_fork] at hgives
  cases hgives with
  | ok htodo hbranches => exact ⟨y, hy, htodo, hbranches.symm, (hall y hy).1⟩

end Compiler

end Stagecraft
