import Stagecraft.Proofs.Footprint
import Stagecraft.Proofs.RoundTrip

/-!
# What merging data does

Data are merged entry by entry. An entry replaces the field of its key in place, or goes to
the end; the list under one key is read as the records that the object owns, and replaces
them as a whole. A list that cannot be read stops the merge: the entries in front of it stay,
and nothing else has changed. Atoms and scenes follow one rule, with keys of their own.

* `Fields.Overlaid`: fields behind entries that were merged into them.
* `Fields.setAll_setAll`: entries that are merged one set after the other.
* `MergeRule`, `Atom.mergeRule`, `Scene.mergeRule`: the rule, and the two objects that follow it.
* `MergeRule.Merged`: what a merge leaves behind; `MergeRule.merged`, `MergeRule.merge_merge`.
* `Scene.merge_shallow`: **what merging does** to atoms and to scenes.
-/

namespace Stagecraft

namespace Fields

variable {fs es : Fields} {j k : String} {v w : Json}

/-! ## Fields behind entries -/

/-- **Fields behind entries**: the keys that were there keep their places and the others follow in
order, and under each key stands the value of the entry, if there is one. -/
structure Overlaid (fs es fs' : Fields) : Prop where
  keys : fs'.keys = fs.keys ++ es.keys.filter (· ∉ fs.keys)
  get? : ∀ k, fs'.get? k = (es.get? k).or (fs.get? k)

theorem get?_eq_none_iff : fs.get? k = none ↔ k ∉ fs.keys := by
  induction fs with
  | nil => simp [get?, keys]
  | cons e fs ih =>
    rw [keys, List.map_cons, List.mem_cons, not_or, get?]
    by_cases h : e.1 = k
    · simp [h]
    · rw [if_neg h, ih]
      exact ⟨fun hk => ⟨Ne.symm h, hk⟩, fun hk => hk.2⟩

theorem setAll_cons (fs : Fields) (e : String × Json) (es : Fields) :
    fs.setAll (e :: es) = (fs.set e.1 e.2).setAll es := rfl

theorem mem_keys_set (fs : Fields) (k : String) (v : Json) : k ∈ (fs.set k v).keys := by
  rw [keys_set]
  split
  · assumption
  · exact List.mem_append_right _ List.mem_cons_self

theorem nodup_keys_set (h : fs.keys.Nodup) (k : String) (v : Json) : (fs.set k v).keys.Nodup := by
  rw [keys_set]
  split
  · exact h
  · rename_i hk
    exact List.nodup_append.2 ⟨h, List.nodup_singleton _, fun a ha b hb => by
      rw [List.mem_singleton.1 hb]
      exact fun hab => hk (hab ▸ ha)⟩

theorem nodup_keys_setAll (h : fs.keys.Nodup) (es : Fields) : (fs.setAll es).keys.Nodup := by
  induction es generalizing fs with
  | nil => exact h
  | cons e es ih => exact ih (nodup_keys_set h _ _)

/-- Entries with distinct keys are written each at the place of its key. -/
theorem overlaid_setAll (h : es.keys.Nodup) (fs : Fields) : fs.Overlaid es (fs.setAll es) := by
  induction es generalizing fs with
  | nil => exact ⟨(List.append_nil _).symm, fun _ => rfl⟩
  | cons e es ih =>
    obtain ⟨he, hes⟩ := List.nodup_cons.1 h
    obtain ⟨hkeys, hget⟩ := ih hes (fs.set e.1 e.2)
    refine ⟨?_, fun k => ?_⟩
    · rw [setAll_cons, hkeys, keys_set]
      by_cases hk : e.1 ∈ fs.keys
      · rw [if_pos hk, show keys (e :: es) = e.1 :: keys es from rfl,
          List.filter_cons_of_neg (by simpa using hk)]
      · -- none of the other entries has the key
        have hsame : (keys es).filter (· ∉ fs.keys ++ [e.1]) = (keys es).filter (· ∉ fs.keys) := by
          apply List.filter_congr
          intro k hmem
          have hne : k ≠ e.1 := by
            rintro rfl
            exact he hmem
          simp [hne]
        rw [if_neg hk, show keys (e :: es) = e.1 :: keys es from rfl,
          List.filter_cons_of_pos (by simpa using hk), hsame, List.append_assoc,
          List.singleton_append]
    · rw [setAll_cons, hget, get?]
      by_cases hk : e.1 = k
      · have hnone : get? es k = none := get?_eq_none_iff.2 (hk ▸ he)
        rw [if_pos hk, hnone, ← hk, get?_set_self]
        rfl
      · rw [if_neg hk, get?_set_of_ne _ _ (Ne.symm hk)]

/-! ## Entries behind entries -/

/-- A field that is there can be set before or after another one. -/
theorem set_comm_of_mem (hk : k ∈ fs.keys) (hne : j ≠ k) (v w : Json) :
    (fs.set j w).set k v = (fs.set k v).set j w := by
  induction fs with
  | nil => cases hk
  | cons e fs ih =>
    by_cases h : e.1 = k
    · have hj : e.1 ≠ j := fun he => hne (he.symm.trans h)
      simp [set, h, Ne.symm hne]
    · have hmem : k ∈ keys fs := by
        rcases List.mem_cons.1 hk with he | hmem
        · exact absurd he.symm h
        · exact hmem
      by_cases hj : e.1 = j
      · simp [set, hj, hne]
      · simp [set, h, hj, ih hmem]

theorem set_setAll (hk : k ∈ fs.keys) (hnew : k ∉ es.keys) (v : Json) :
    (fs.setAll es).set k v = (fs.set k v).setAll es := by
  induction es generalizing fs with
  | nil => rfl
  | cons e es ih =>
    have hne : e.1 ≠ k := fun he => hnew (he ▸ List.mem_cons_self)
    have hes : k ∉ keys es := fun hm => hnew (List.mem_cons_of_mem _ hm)
    have hmem : k ∈ (fs.set e.1 e.2).keys := by
      rw [keys_set]
      split
      · exact hk
      · exact List.mem_append_left _ hk
    rw [setAll_cons, setAll_cons, ih hmem hes, set_comm_of_mem hk hne]

/-- An entry that is replaced among others is the last one that is written. -/
theorem setAll_set (h : es.keys.Nodup) (fs : Fields) (k : String) (v : Json) :
    fs.setAll (es.set k v) = (fs.setAll es).set k v := by
  induction es generalizing fs with
  | nil => rfl
  | cons e es ih =>
    obtain ⟨he, hes⟩ := List.nodup_cons.1 h
    by_cases hk : e.1 = k
    · have hnew : k ∉ keys es := hk ▸ he
      rw [set, if_pos hk, setAll_cons, setAll_cons, set_setAll (hk ▸ mem_keys_set _ _ _) hnew, hk,
        set_set]
    · rw [set, if_neg hk, setAll_cons, setAll_cons, ih hes]

/-- **Entries that are merged one set after the other** are merged together. -/
theorem setAll_setAll (h : es.keys.Nodup) (fs es' : Fields) :
    fs.setAll (es.setAll es') = (fs.setAll es).setAll es' := by
  induction es' generalizing es with
  | nil => rfl
  | cons e es' ih =>
    rw [setAll_cons, ih (nodup_keys_set h _ _), setAll_set h, ← setAll_cons]

theorem filter_set_of_pos {P : String → Bool} (hk : P k = true) (fs : Fields) (v : Json) :
    (fs.set k v).filter (fun e => P e.1) = Fields.set (fs.filter fun e => P e.1) k v := by
  induction fs with
  | nil => simp [set, hk]
  | cons e fs ih =>
    by_cases h : e.1 = k
    · have he : P e.1 = true := h ▸ hk
      simp [set, h, hk]
    · by_cases he : P e.1 = true
      · simp [set, h, he, ih]
      · simp [set, h, he, ih]

theorem filter_setAll (P : String → Bool) (fs es : Fields) :
    (fs.setAll es).filter (fun e => P e.1) =
      Fields.setAll (fs.filter fun e => P e.1) (es.filter fun e => P e.1) := by
  induction es generalizing fs with
  | nil => rfl
  | cons e es ih =>
    rw [setAll_cons, ih, List.filter_cons]
    by_cases he : P e.1 = true
    · rw [if_pos he, filter_set_of_pos he, setAll_cons]
    · rw [if_neg he, filter_set (by simpa using he)]

theorem nodup_keys_filter (h : es.keys.Nodup) (P : String × Json → Bool) :
    (keys (es.filter P)).Nodup :=
  h.sublist (List.filter_sublist.map _)

/-- A field among the others, where no two have one key. -/
theorem exists_of_get? (h : fs.keys.Nodup) (hv : fs.get? k = some v) :
    ∃ front back : Fields, fs = front ++ (k, v) :: back ∧ k ∉ front.keys ∧ k ∉ back.keys := by
  induction fs with
  | nil => cases hv
  | cons e fs ih =>
    obtain ⟨he, hfs⟩ := List.nodup_cons.1 h
    rw [get?] at hv
    by_cases hk : e.1 = k
    · rw [if_pos hk] at hv
      obtain ⟨key, w⟩ := e
      cases hv
      cases hk
      -- the first field with the key has nothing in front of it
      exact ⟨[], fs, rfl, List.not_mem_nil, he⟩
    · rw [if_neg hk] at hv
      obtain ⟨front, back, rfl, hfront, hback⟩ := ih hfs hv
      refine ⟨e :: front, back, rfl, fun hm => ?_, hback⟩
      rcases List.mem_cons.1 hm with hm | hm
      · exact hk hm.symm
      · exact hfront hm

end Fields

/-! ## One rule -/

/-- **How data are merged**: some keys are left out, and what stands under one key is read as the
records that the object owns. -/
structure MergeRule (ρ : Type) where
  skips : String → Bool
  listKey : String
  read? : Json → Except Fault ρ
  /-- The value can be read. -/
  Lists : Json → Prop
  skips_listKey : skips listKey = false
  lists_iff : ∀ v, Lists v ↔ ∃ r, read? v = .ok r

namespace MergeRule

variable {ρ : Type} {m : MergeRule ρ} {fs data front back : Fields} {owned r : ρ} {v : Json}
  {f : Fault}

/-- Merges entry by entry into fields and the records beside them. -/
def merge (m : MergeRule ρ) (fs : Fields) (owned : ρ) : Fields → (Fields × ρ) × Except Fault Unit
  | [] => ((fs, owned), .ok ())
  | (key, v) :: data =>
    if m.skips key then merge m fs owned data
    else if key = m.listKey then
      match m.read? v with
      | .ok r => merge m fs r data
      | .error f => ((fs, owned), .error f)
    else merge m (fs.set key v) owned data

/-- The key of an entry is that of a field. -/
def isField (m : MergeRule ρ) (key : String) : Bool := !m.skips key && key != m.listKey

/-- The entries that are merged into the fields. -/
def entries (m : MergeRule ρ) (data : Fields) : Fields := data.filter fun e => m.isField e.1

/-- **What a merge leaves behind.** It fails exactly if the data give a list that cannot be read.
Then the entries in front of the list are merged, and nothing else has changed. Otherwise all are,
and the records are those of the list, if one is given. -/
structure Merged (m : MergeRule ρ) (fs : Fields) (owned : ρ) (data fs' : Fields) (owned' : ρ)
    (answer : Except Fault Unit) : Prop where
  fails_iff : (∃ f, answer = .error f) ↔ ∃ v, data.get? m.listKey = some v ∧ ¬ m.Lists v
  failed : ∀ f, answer = .error f → owned' = owned ∧ ∃ front v back,
    data = front ++ (m.listKey, v) :: back ∧ m.read? v = .error f ∧
      fs.Overlaid (m.entries front) fs'
  succeeded : answer = .ok () → fs.Overlaid (m.entries data) fs' ∧
    (data.get? m.listKey = none → owned' = owned) ∧
      ∀ v, data.get? m.listKey = some v → m.read? v = .ok owned'

theorem merge_skipped {key : String} (h : m.skips key = true) :
    m.merge fs owned ((key, v) :: data) = m.merge fs owned data := by
  rw [merge, if_pos h]

theorem merge_field {key : String} (hs : m.skips key = false) (hl : key ≠ m.listKey) :
    m.merge fs owned ((key, v) :: data) = m.merge (fs.set key v) owned data := by
  rw [merge, if_neg (by simp [hs]), if_neg hl]

theorem merge_read (h : m.read? v = .ok r) :
    m.merge fs owned ((m.listKey, v) :: data) = m.merge fs r data := by
  rw [merge, if_neg (by simp [m.skips_listKey]), if_pos rfl, h]

theorem merge_unread (h : m.read? v = .error f) :
    m.merge fs owned ((m.listKey, v) :: data) = ((fs, owned), .error f) := by
  rw [merge, if_neg (by simp [m.skips_listKey]), if_pos rfl, h]

theorem entries_append (m : MergeRule ρ) (front back : Fields) :
    m.entries (front ++ back) = m.entries front ++ m.entries back :=
  List.filter_append _ _

/-- A list is no field. -/
theorem entries_list (m : MergeRule ρ) (v : Json) (back : Fields) :
    m.entries ((m.listKey, v) :: back) = m.entries back :=
  List.filter_cons_of_neg (by simp [isField])

/-- In front of the list there are fields only. -/
theorem merge_append (h : m.listKey ∉ front.keys) (fs : Fields) (owned : ρ) (data : Fields) :
    m.merge fs owned (front ++ data) = m.merge (fs.setAll (m.entries front)) owned data := by
  induction front generalizing fs with
  | nil => rfl
  | cons e front ih =>
    obtain ⟨key, v⟩ := e
    have hne : key ≠ m.listKey := fun he => h (he ▸ List.mem_cons_self)
    have hfront : m.listKey ∉ Fields.keys front := fun hm => h (List.mem_cons_of_mem _ hm)
    rw [List.cons_append, entries, List.filter_cons]
    by_cases hs : m.skips key = true
    · rw [merge_skipped hs, ih hfront, if_neg (by simp [isField, hs])]
      rfl
    · rw [merge_field (by simpa using hs) hne, ih hfront, if_pos (by simp [isField, hs, hne])]
      rfl

theorem merge_of_not_mem (h : m.listKey ∉ data.keys) (fs : Fields) (owned : ρ) :
    m.merge fs owned data = ((fs.setAll (m.entries data), owned), .ok ()) := by
  have hall := merge_append h fs owned []
  rwa [List.append_nil] at hall

/-- A list that is read. -/
theorem merge_of_read (hfront : m.listKey ∉ front.keys) (hback : m.listKey ∉ back.keys)
    (hr : m.read? v = .ok r) (fs : Fields) (owned : ρ) :
    m.merge fs owned (front ++ (m.listKey, v) :: back) =
      ((fs.setAll (m.entries (front ++ (m.listKey, v) :: back)), r), .ok ()) := by
  rw [merge_append hfront, merge_read hr, merge_of_not_mem hback, entries_append, entries_list,
    Fields.setAll_append]

/-- A list that cannot be read. -/
theorem merge_of_fault (hfront : m.listKey ∉ front.keys) (hf : m.read? v = .error f) (fs : Fields)
    (owned : ρ) (back : Fields) : m.merge fs owned (front ++ (m.listKey, v) :: back) =
      ((fs.setAll (m.entries front), owned), .error f) := by
  rw [merge_append hfront, merge_unread hf]

/-- The records behind a merge: those that are read, or those that were there. -/
def given? (m : MergeRule ρ) (owned : ρ) : Option Json → Except Fault ρ
  | none => .ok owned
  | some v => m.read? v

/-- **A merge ends in one of two ways**: all is merged, or a list is given that cannot be read. -/
theorem merge_cases (m : MergeRule ρ) (h : data.keys.Nodup) (fs : Fields) (owned : ρ) :
    (∃ r, m.given? owned (data.get? m.listKey) = .ok r ∧
      m.merge fs owned data = ((fs.setAll (m.entries data), r), .ok ())) ∨
    ∃ front v back f, data = front ++ (m.listKey, v) :: back ∧ data.get? m.listKey = some v ∧
      m.read? v = .error f ∧
      m.merge fs owned data = ((fs.setAll (m.entries front), owned), .error f) := by
  cases hv : data.get? m.listKey with
  | none => exact .inl ⟨owned, rfl, merge_of_not_mem (Fields.get?_eq_none_iff.1 hv) fs owned⟩
  | some v =>
    obtain ⟨front, back, rfl, hfront, hback⟩ := Fields.exists_of_get? h hv
    cases hr : m.read? v with
    | ok r => exact .inl ⟨r, hr, merge_of_read hfront hback hr fs owned⟩
    | error f =>
      exact .inr ⟨front, v, back, f, rfl, rfl, hr, merge_of_fault hfront hr fs owned back⟩

theorem merge_of_ok (h : data.keys.Nodup) (hok : (m.merge fs owned data).2 = .ok ()) :
    ∃ r, m.given? owned (data.get? m.listKey) = .ok r ∧
      m.merge fs owned data = ((fs.setAll (m.entries data), r), .ok ()) := by
  rcases m.merge_cases h fs owned with hall | ⟨front, v, back, f, -, -, -, hout⟩
  · exact hall
  · rw [hout] at hok
    cases hok

theorem nodup_entries (m : MergeRule ρ) (h : data.keys.Nodup) : (m.entries data).keys.Nodup :=
  Fields.nodup_keys_filter h _

/-- **What the rule leaves behind.** -/
theorem merged (m : MergeRule ρ) (h : data.keys.Nodup) (fs : Fields) (owned : ρ) :
    m.Merged fs owned data (m.merge fs owned data).1.1 (m.merge fs owned data).1.2
      (m.merge fs owned data).2 := by
  rcases m.merge_cases h fs owned with ⟨r, hr, hout⟩ | ⟨front, v, back, f, hsplit, hv, hf, hout⟩
  · rw [hout]
    refine ⟨⟨?_, ?_⟩, ?_, fun _ => ⟨Fields.overlaid_setAll (m.nodup_entries h) fs, ?_, ?_⟩⟩
    · rintro ⟨f, hf⟩
      cases hf
    · rintro ⟨v, hv, hbad⟩
      rw [hv] at hr
      exact absurd ((m.lists_iff v).2 ⟨r, hr⟩) hbad
    · intro f hf
      cases hf
    · intro hnone
      rw [hnone] at hr
      exact (Except.ok.inj hr).symm
    · intro v hv
      rwa [hv] at hr
  · -- the entries in front of the list are among the data, so their keys are distinct too
    have hfront : (Fields.keys front).Nodup := by
      rw [hsplit, Fields.keys, List.map_append] at h
      exact (List.nodup_append.1 h).1
    have hbad : ¬ m.Lists v := fun hl => by
      -- the list is read or refused, not both
      obtain ⟨r, hok⟩ := (m.lists_iff v).1 hl
      cases hf.symm.trans hok
    rw [hout]
    refine ⟨⟨fun _ => ⟨v, hv, hbad⟩, fun _ => ⟨f, rfl⟩⟩, ?_, ?_⟩
    · intro g hg
      cases hg
      exact ⟨rfl, front, v, back, hsplit, hf, Fields.overlaid_setAll (m.nodup_entries hfront) fs⟩
    · intro hok
      cases hok

/-- **Two merges that succeed are one merge**, of the data of the first with those of the second
laid over them. -/
theorem merge_merge {data₁ data₂ : Fields} (h₁ : data₁.keys.Nodup) (h₂ : data₂.keys.Nodup)
    {fs₁ : Fields} {owned₁ : ρ} (hok₁ : m.merge fs owned data₁ = ((fs₁, owned₁), .ok ()))
    (hok₂ : (m.merge fs₁ owned₁ data₂).2 = .ok ()) :
    m.merge fs owned (data₁.setAll data₂) = m.merge fs₁ owned₁ data₂ := by
  have hboth : (data₁.setAll data₂).keys.Nodup := Fields.nodup_keys_setAll h₁ data₂
  have hlist := (Fields.overlaid_setAll h₂ data₁).get? m.listKey
  have hentries : m.entries (data₁.setAll data₂) = (m.entries data₁).setAll (m.entries data₂) :=
    Fields.filter_setAll m.isField data₁ data₂
  obtain ⟨r₁, hr₁, hout₁⟩ := merge_of_ok h₁ (congrArg Prod.snd hok₁)
  cases hout₁.symm.trans hok₁
  obtain ⟨r₂, hr₂, hout₂⟩ := merge_of_ok h₂ hok₂
  -- a list of the second data counts, and else one of the first
  have hr : m.given? owned ((data₁.setAll data₂).get? m.listKey) = .ok r₂ := by
    rw [hlist]
    cases hv : data₂.get? m.listKey with
    | none =>
      rw [hv] at hr₂
      cases hr₂
      exact hr₁
    | some v => rwa [hv] at hr₂
  rcases m.merge_cases hboth fs owned with ⟨r, hr', hout⟩ | ⟨front, v, back, f, -, hv, hf, -⟩
  · cases hr.symm.trans hr'
    rw [hout, hout₂, hentries, Fields.setAll_setAll (m.nodup_entries h₁)]
  · rw [hv] at hr
    cases hf.symm.trans hr

end MergeRule

/-! ## Atoms and scenes -/

namespace Json

/-- A list of records. -/
def ListsRecords (v : Json) : Prop := ∃ vs, v = .arr vs ∧ ∀ u ∈ vs, u.IsRecord

/-- A list of atoms. -/
def ListsAtoms (v : Json) : Prop := ∃ vs, v = .arr vs ∧ ∀ u ∈ vs, u.IsAtom

end Json

/-- The rule for atoms: the id is left out, and a list of storables is read. -/
def Atom.mergeRule (owner : String) : MergeRule (Registry Storable) where
  skips := (· == idKey)
  listKey := storablesKey
  read? := storablesOf? owner
  Lists := Json.ListsRecords
  skips_listKey := by decide
  lists_iff _ := (exists_storablesOf?_iff owner).symm

/-- **Atoms follow the rule.** -/
theorem Atom.merge_eq (a : Atom) (data : Fields) :
    a.merge data = (⟨a.id, ((mergeRule a.id).merge a.fields a.storables data).1.1,
        ((mergeRule a.id).merge a.fields a.storables data).1.2⟩,
      ((mergeRule a.id).merge a.fields a.storables data).2) := by
  induction data generalizing a with
  | nil => rfl
  | cons e data ih =>
    obtain ⟨key, v⟩ := e
    -- each step is one of the rule: a field that is skipped, the list, or another field
    by_cases hid : key = idKey
    · have hskips : (mergeRule a.id).skips key = true := beq_iff_eq.2 hid
      rw [merge, if_pos hid, ih, MergeRule.merge_skipped hskips]
    · have hskips : (mergeRule a.id).skips key = false := beq_eq_false_iff_ne.2 hid
      rw [merge, if_neg hid]
      by_cases hs : key = storablesKey
      · have hlist : key = (mergeRule a.id).listKey := hs
        rw [if_pos hs, hlist]
        cases hr : storablesOf? a.id v with
        | ok ss =>
          have hread : (mergeRule a.id).read? v = .ok ss := hr
          rw [MergeRule.merge_read hread]
          exact ih { a with storables := ss }
        | error f =>
          have hread : (mergeRule a.id).read? v = .error f := hr
          rw [MergeRule.merge_unread hread]
      · have hlist : key ≠ (mergeRule a.id).listKey := hs
        rw [if_neg hs, MergeRule.merge_field hskips hlist]
        exact ih (a.setField key v)

namespace Scene

/-- **Which lists of atoms are read.** -/
theorem exists_atomsOf?_iff {vs : List Json} :
    (∃ as, atomsOf? vs = .ok as) ↔ ∀ u ∈ vs, u.IsAtom := by
  constructor
  · rintro ⟨r, h⟩ u hu
    obtain ⟨as, has, -⟩ := map_eq_ok h
    exact Atom.exists_ofJson?_iff.1 (exists_mapM_iff.1 ⟨as, has⟩ u hu)
  · intro h
    obtain ⟨as, has⟩ := exists_mapM_iff.2 fun u hu => Atom.exists_ofJson?_iff.2 (h u hu)
    exact ⟨.ofList as, by rw [atomsOf?, has]; rfl⟩

/-- The atoms that a value lists. -/
def listed? : Json → Except Fault (Registry Atom)
  | .arr vs => atomsOf? vs
  | _ => .error .atomsNotList

theorem exists_listed?_iff {v : Json} : (∃ as, listed? v = .ok as) ↔ v.ListsAtoms := by
  constructor
  · rintro ⟨as, h⟩
    cases v with
    | arr vs => exact ⟨vs, rfl, exists_atomsOf?_iff.1 ⟨as, h⟩⟩
    | _ => cases h
  · rintro ⟨vs, rfl, hvs⟩
    exact exists_atomsOf?_iff.2 hvs

/-- The rule for scenes: a list of atoms is read. -/
def mergeRule : MergeRule (Registry Atom) where
  skips _ := false
  listKey := atomsKey
  read? := listed?
  Lists := Json.ListsAtoms
  skips_listKey := rfl
  lists_iff _ := exists_listed?_iff.symm

theorem merge_listed {s : Scene} {v : Json} {data : Fields} : s.merge ((atomsKey, v) :: data) =
    match listed? v with
    | .ok as => merge { s with atoms := as } data
    | .error f => (s, .error f) := by
  cases v with
  | arr vs => cases h : atomsOf? vs <;> simp [merge, listed?, h]
  | _ => rfl

/-- **Scenes follow the rule.** -/
theorem merge_eq (s : Scene) (data : Fields) :
    s.merge data = (⟨(mergeRule.merge s.fields s.atoms data).1.1,
        (mergeRule.merge s.fields s.atoms data).1.2⟩,
      (mergeRule.merge s.fields s.atoms data).2) := by
  induction data generalizing s with
  | nil => rfl
  | cons e data ih =>
    obtain ⟨key, v⟩ := e
    -- the atoms are the list of the rule, and nothing is skipped
    by_cases ha : key = atomsKey
    · have hlist : atomsKey = mergeRule.listKey := rfl
      rw [ha, merge_listed]
      cases hr : listed? v with
      | ok as =>
        have hread : mergeRule.read? v = .ok as := hr
        rw [hlist, MergeRule.merge_read hread]
        exact ih { s with atoms := as }
      | error f =>
        have hread : mergeRule.read? v = .error f := hr
        rw [hlist, MergeRule.merge_unread hread]
    · have hlist : key ≠ mergeRule.listKey := ha
      have hfield : s.merge ((key, v) :: data) = merge ⟨s.fields.set key v, s.atoms⟩ data := by
        cases v <;> exact if_neg ha
      rw [hfield, ih, MergeRule.merge_field rfl hlist]

/-- **Merging is shallow.** An atom keeps its id, and fails to be merged exactly if its data give
storables that are no list of records; a scene fails exactly if its data give atoms that are no
list of atoms. What is merged up to a fault, and what is merged in the end, is told by the rule;
and two merges that succeed are one merge, of the second data laid over the first. -/
theorem merge_shallow (data₁ data₂ : Fields) (h₁ : data₁.keys.Nodup) (h₂ : data₂.keys.Nodup) :
    (∀ a : Atom, (a.merge data₁).1.id = a.id ∧
      (Atom.mergeRule a.id).Merged a.fields a.storables data₁ (a.merge data₁).1.fields
        (a.merge data₁).1.storables (a.merge data₁).2 ∧
      ((a.merge data₁).2 = .ok () → ((a.merge data₁).1.merge data₂).2 = .ok () →
        (a.merge data₁).1.merge data₂ = a.merge (data₁.setAll data₂))) ∧
    (∀ s : Scene, mergeRule.Merged s.fields s.atoms data₁ (s.merge data₁).1.fields
        (s.merge data₁).1.atoms (s.merge data₁).2 ∧
      ((s.merge data₁).2 = .ok () → ((s.merge data₁).1.merge data₂).2 = .ok () →
        (s.merge data₁).1.merge data₂ = s.merge (data₁.setAll data₂))) ∧
    data₁.Overlaid data₂ (data₁.setAll data₂) := by
  refine ⟨fun a => ⟨?_, ?_, fun hok₁ hok₂ => ?_⟩, fun s => ⟨?_, fun hok₁ hok₂ => ?_⟩,
    Fields.overlaid_setAll h₂ data₁⟩
  · rw [Atom.merge_eq]
  · rw [Atom.merge_eq]
    exact (Atom.mergeRule a.id).merged h₁ a.fields a.storables
  · rw [Atom.merge_eq] at hok₁ hok₂ ⊢
    rw [Atom.merge_eq a data₁] at hok₂ ⊢
    rw [Atom.merge_eq, MergeRule.merge_merge h₁ h₂ (Prod.ext rfl hok₁) hok₂]
  · rw [merge_eq]
    exact mergeRule.merged h₁ s.fields s.atoms
  · rw [merge_eq] at hok₁ hok₂ ⊢
    rw [merge_eq s data₁] at hok₂ ⊢
    rw [merge_eq, MergeRule.merge_merge h₁ h₂ (Prod.ext rfl hok₁) hok₂]

/-- A lamp that is on. -/
def deskLamp : Atom := ⟨"Lamp", [("on", .str "true"), ("color", .str "red")], .empty⟩

/-- Another id, another color and a light. -/
def refit : Fields :=
  [("id", .str "Desk"), ("color", .str "blue"), ("storables", .arr [.obj [("id", .str "Light")]])]

/-- A range and a third color. -/
def repaint : Fields := [("range", .str "5"), ("color", .str "green")]

/-- The lamp keeps its id, and is painted where its color stood. -/
theorem merge_shallow_lamp : refit.keys.Nodup ∧ repaint.keys.Nodup ∧
    ((deskLamp.merge refit).1.merge repaint).2 = .ok () ∧
    (deskLamp.merge refit).1.id = "Lamp" ∧
    (deskLamp.merge refit).1.merge repaint = deskLamp.merge (refit.setAll repaint) ∧
    (deskLamp.merge (refit.setAll repaint)).1.fields =
      [("on", .str "true"), ("color", .str "green"), ("range", .str "5")] ∧
    (deskLamp.merge (refit.setAll repaint)).1.storables.ids = ["Light"] := by
  have hrefit : refit.keys.Nodup := by decide
  have hrepaint : repaint.keys.Nodup := by decide
  obtain ⟨hid, -, hboth⟩ := (merge_shallow refit repaint hrefit hrepaint).1 deskLamp
  have hok : (deskLamp.merge refit).2 = .ok () := rfl
  exact ⟨hrefit, hrepaint, rfl, hid, hboth hok rfl, rfl, rfl⟩

/-- An atom with an id whose storables are no list. -/
def torn : Json := .arr [.obj [("id", .str "Lamp"), ("storables", .str "none")]]

/-- **It does not suffice that the atoms are records**: their storables are read too. -/
theorem merge_fails_on_records : ¬ ∀ (s : Scene) (data : Fields), data.keys.Nodup →
    ((∃ f, (s.merge data).2 = .error f) ↔
      ∃ v, data.get? atomsKey = some v ∧ ¬ v.ListsRecords) := by
  intro hall
  have hfails : ∃ f, (merge ⟨[], .empty⟩ [(atomsKey, torn)]).2 = .error f := ⟨_, rfl⟩
  obtain ⟨v, hv, hbad⟩ := (hall ⟨[], .empty⟩ [(atomsKey, torn)] (by decide)).1 hfails
  cases hv
  apply hbad
  refine ⟨_, rfl, fun u hu => ?_⟩
  rw [List.mem_singleton.1 hu]
  exact ⟨"Lamp", rfl⟩

end Scene

end Stagecraft
