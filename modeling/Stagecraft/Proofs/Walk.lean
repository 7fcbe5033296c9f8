import Stagecraft.Story.Walk

/-!
# What a walk visits and notes

A walk expands each name of `fresh` once. The names that it expands are those that
the errands lead to, whatever the order of the errands:

* `mem_walk_iff`: the notes of a walk are those of its errands and of the names
  that it visits.
* `mem_visited_iff`: a walk visits the names that it can get to.
* `walk_congr`: a walk depends on the names that it can get to only.
* `filterMap_walk`: where each expansion announces its name first, the
  announcements of a walk are the visited names, in order.
-/

namespace Stagecraft

variable {ω : Type} {expand : String → List (Errand ω)}

/-- The names that a walk expands, in order. -/
def visited (expand : String → List (Errand ω)) (fresh : List String) :
    List (Errand ω) → List String
  | [] => []
  | .note _ :: todo => visited expand fresh todo
  | .go n :: todo =>
    if n ∈ fresh then n :: visited expand (fresh.erase n) (expand n ++ todo)
    else visited expand fresh todo
termination_by todo => walkBound expand fresh + todo.length
decreasing_by
  · simp
  · rename_i h
    have := walkBound_erase expand h
    simp
    omega
  · simp

/-- The names that errands lead to. -/
inductive Reached (expand : String → List (Errand ω)) (todo : List (Errand ω)) : String → Prop
  | here {n : String} : .go n ∈ todo → Reached expand todo n
  | there {m n : String} : Reached expand todo m → .go n ∈ expand m → Reached expand todo n

theorem visited_subset {fresh : List String} {todo : List (Errand ω)} {n : String}
    (h : n ∈ visited expand fresh todo) : n ∈ fresh := by
  fun_induction visited expand fresh todo with
  | case1 => simp at h
  | case2 _ _ _ ih => exact ih h
  | case3 fresh m todo hm ih =>
    rcases List.mem_cons.1 h with rfl | h
    · exact hm
    · exact List.mem_of_mem_erase (ih h)
  | case4 _ _ _ _ ih => exact ih h

/-- No name is expanded twice. -/
theorem nodup_visited {fresh : List String} (todo : List (Errand ω)) (hf : fresh.Nodup) :
    (visited expand fresh todo).Nodup := by
  fun_induction visited expand fresh todo with
  | case1 => exact List.nodup_nil
  | case2 _ _ _ ih => exact ih hf
  | case3 fresh m todo _ ih =>
    refine List.nodup_cons.2 ⟨fun h => ?_, ih (hf.erase m)⟩
    exact hf.not_mem_erase (visited_subset h)
  | case4 _ _ _ _ ih => exact ih hf

/-- **The notes of a walk**: those at hand, and those of the names that it visits. -/
theorem mem_walk_iff {fresh : List String} {todo : List (Errand ω)} {o : ω} :
    o ∈ walk expand fresh todo ↔
      .note o ∈ todo ∨ ∃ n ∈ visited expand fresh todo, .note o ∈ expand n := by
  fun_induction visited expand fresh todo with
  | case1 => simp [walk]
  | case2 fresh o' todo ih =>
    rw [walk, List.mem_cons, ih, List.mem_cons, Errand.note.injEq, or_assoc]
  | case3 fresh n todo hn ih =>
    rw [walk, if_pos hn, ih]
    simp only [List.mem_append, List.mem_cons, reduceCtorEq, false_or, exists_eq_or_imp]
    rw [or_assoc, or_left_comm]
  | case4 fresh n todo hn ih =>
    rw [walk, if_neg hn, ih]
    simp

/-- A note behind all errands is written down last. -/
theorem walk_append_note (fresh : List String) (todo : List (Errand ω)) (o : ω) :
    walk expand fresh (todo ++ [.note o]) = walk expand fresh todo ++ [o] := by
  fun_induction walk expand fresh todo with
  | case1 => simp [walk]
  | case2 fresh o' todo ih => rw [List.cons_append, walk, ih, List.cons_append]
  | case3 fresh n todo hn ih => rw [List.cons_append, walk, if_pos hn, ← List.append_assoc, ih]
  | case4 fresh n todo hn ih => rw [List.cons_append, walk, if_neg hn, ih]

theorem visited_of_go {fresh : List String} {todo : List (Errand ω)} {n : String}
    (hn : n ∈ fresh) (h : .go n ∈ todo) : n ∈ visited expand fresh todo := by
  fun_induction visited expand fresh todo with
  | case1 => simp at h
  | case2 fresh o todo ih => exact ih hn (by simpa using h)
  | case3 fresh m todo hm ih =>
    by_cases hnm : n = m
    · rw [hnm]; exact List.mem_cons_self
    · have hin : .go n ∈ expand m ++ todo := by
        rw [List.mem_append]; right; simpa [hnm] using h
      exact List.mem_cons_of_mem _ (ih ((List.mem_erase_of_ne hnm).2 hn) hin)
  | case4 fresh m todo hm ih =>
    have hnm : n ≠ m := fun e => hm (e ▸ hn)
    exact ih hn (by simpa [hnm] using h)

/-- What a visited name leads to is visited too. -/
theorem visited_closed {fresh : List String} {todo : List (Errand ω)} {m n : String}
    (hm : m ∈ visited expand fresh todo) (hn : n ∈ fresh) (h : .go n ∈ expand m) :
    n ∈ visited expand fresh todo := by
  fun_induction visited expand fresh todo with
  | case1 => simp at hm
  | case2 _ _ _ ih => exact ih hm hn
  | case3 fresh k todo hk ih =>
    by_cases hnk : n = k
    · rw [hnk]; exact List.mem_cons_self
    have hn' : n ∈ fresh.erase k := (List.mem_erase_of_ne hnk).2 hn
    apply List.mem_cons_of_mem
    -- `m` is expanded here, so `n` is at hand, or it is expanded later on
    rcases List.mem_cons.1 hm with rfl | hm
    · exact visited_of_go hn' (List.mem_append_left _ h)
    · exact ih hm hn'
  | case4 _ _ _ _ ih => exact ih hm hn

/-- Errands that only lead where others get to add nothing to these. -/
theorem Reached.of_errands {todo todo' : List (Errand ω)} {n : String}
    (h : Reached expand todo' n) (ht : ∀ m, .go m ∈ todo' → Reached expand todo m) :
    Reached expand todo n := by
  induction h with
  | here hg => exact ht _ hg
  | there _ hg ih => exact .there ih hg

theorem reached_of_visited {fresh : List String} {todo : List (Errand ω)} {n : String}
    (h : n ∈ visited expand fresh todo) : Reached expand todo n := by
  fun_induction visited expand fresh todo with
  | case1 => simp at h
  | case2 fresh o todo ih =>
    exact (ih h).of_errands fun _ hg => .here (List.mem_cons_of_mem _ hg)
  | case3 fresh m todo hm ih =>
    have hm' : Reached expand (.go m :: todo) m := .here List.mem_cons_self
    rcases List.mem_cons.1 h with rfl | h
    · exact hm'
    refine (ih h).of_errands fun k hg => ?_
    rcases List.mem_append.1 hg with hg | hg
    · exact .there hm' hg
    · exact .here (List.mem_cons_of_mem _ hg)
  | case4 fresh m todo hm ih =>
    exact (ih h).of_errands fun _ hg => .here (List.mem_cons_of_mem _ hg)

/-- **A walk visits what it can get to**, if that is all fresh. -/
theorem mem_visited_iff {fresh : List String} {todo : List (Errand ω)}
    (hf : ∀ n, Reached expand todo n → n ∈ fresh) {n : String} :
    n ∈ visited expand fresh todo ↔ Reached expand todo n := by
  refine ⟨reached_of_visited, fun h => ?_⟩
  have hn := hf n h
  induction h with
  | here hg => exact visited_of_go hn hg
  | there hm hg ih => exact visited_closed (ih (hf _ hm)) hn hg

/-- **Two walks are the same** if what they can get to expands to the same in both, and is fresh
in both or in neither. -/
theorem walk_congr {expand' : String → List (Errand ω)} {fresh fresh' : List String}
    {todo : List (Errand ω)} (hf : fresh.Nodup) (hf' : fresh'.Nodup)
    (h : ∀ n, Reached expand todo n → expand' n = expand n ∧ (n ∈ fresh' ↔ n ∈ fresh)) :
    walk expand' fresh' todo = walk expand fresh todo := by
  fun_induction walk expand fresh todo generalizing fresh' with
  | case1 => rw [walk]
  | case2 fresh o todo ih =>
    rw [walk, ih hf hf' fun n hn => h n (hn.of_errands fun m hm => ?_)]
    exact .here (List.mem_cons_of_mem _ hm)
  | case3 fresh n todo hn ih =>
    have hhere : Reached expand (.go n :: todo) n := .here List.mem_cons_self
    obtain ⟨he, hfresh⟩ := h n hhere
    rw [walk, if_pos (hfresh.2 hn), he]
    refine ih (hf.erase n) (hf'.erase n) fun k hk => ?_
    -- what the name expands to is got to through it
    have hk' : Reached expand (.go n :: todo) k := hk.of_errands fun m hm => by
      rcases List.mem_append.1 hm with hm | hm
      · exact .there hhere hm
      · exact .here (List.mem_cons_of_mem _ hm)
    obtain ⟨hke, hkf⟩ := h k hk'
    rw [hf.mem_erase_iff, hf'.mem_erase_iff, hkf]
    exact ⟨hke, Iff.rfl⟩
  | case4 fresh n todo hn ih =>
    obtain ⟨-, hfresh⟩ := h n (.here List.mem_cons_self)
    rw [walk, if_neg fun hm => hn (hfresh.1 hm)]
    refine ih hf hf' fun k hk => h k (hk.of_errands fun m hm => ?_)
    exact .here (List.mem_cons_of_mem _ hm)

/-- Each expansion announces its name by its first note, and `pick` reads the name off that
note only; then the announcements of a walk are the visited names. -/
theorem filterMap_walk {pick : ω → Option String} {fresh : List String} {todo : List (Errand ω)}
    (hx : ∀ n ∈ fresh, ∃ o rest, expand n = .note o :: rest ∧ pick o = some n ∧
      ∀ o', .note o' ∈ rest → pick o' = none)
    (ht : ∀ o, .note o ∈ todo → pick o = none) :
    (walk expand fresh todo).filterMap pick = visited expand fresh todo := by
  -- not by the recursion of the walk: the announcement is done with before the hypothesis
  -- on the errands holds again
  induction hk : walkBound expand fresh + todo.length using Nat.strongRecOn
    generalizing fresh todo with
  | _ k ih =>
    subst hk
    match todo with
    | [] => simp [walk, visited]
    | .note o :: todo =>
      rw [walk, visited, List.filterMap_cons, ht o List.mem_cons_self]
      exact ih _ (by simp) hx (fun o' h => ht o' (List.mem_cons_of_mem _ h)) rfl
    | .go n :: todo =>
      have ht' : ∀ o, .note o ∈ todo → pick o = none := fun o h => ht o (List.mem_cons_of_mem _ h)
      rw [walk, visited]
      split
      · rename_i hn
        obtain ⟨o, rest, he, ho, hrest⟩ := hx n hn
        have hb := walkBound_erase expand hn
        rw [he, List.cons_append, walk, visited, List.filterMap_cons, ho]
        simp only [List.cons.injEq, true_and]
        rw [he] at hb
        refine ih _ ?_ (fun m hm => hx m (List.mem_of_mem_erase hm)) (fun o' h => ?_) rfl
        · simp only [List.length_append, List.length_cons] at hb ⊢
          omega
        · exact (List.mem_append.1 h).elim (hrest o') (ht' o')
      · exact ih _ (by simp) hx ht' rfl

/-- A name that is seen is one less among those that were not. -/
theorem filter_not_mem_concat {names : List String} (h : names.Nodup) (seen : List String)
    (n : String) : (names.filter fun k => k ∉ seen ++ [n]) =
      (names.filter fun k => k ∉ seen).erase n := by
  rw [List.Nodup.erase_eq_filter (h.filter _), List.filter_filter]
  refine List.filter_congr fun k _ => ?_
  by_cases hk : k = n <;> simp [hk]

end Stagecraft
