import Stagecraft.Proofs.Agreement

/-!
# Walks on a budget

A walk can be run by calls that call each other, where each call does what the walk does until it
comes back. How deep they are nested is not plain from the calls themselves, so they are given a
budget here, and give up when it is used up. A story never uses up a depth of as many calls as it
has names.

* `Task`: a computation with a state that can fail, and can use up its budget.
* `Doing`, `Task.Done`, `Doing.Does`: a task that does what errands do; `Done.bind`, `Does.forM`.
* `Story.visitWithin`, `Story.capacityWithin`: the count of needs by nested visits.
* `Story.capacityWithin_names`: **the names of a story are depth enough** for its needs.
-/

namespace Stagecraft

variable {σ ω ρ α β : Type}

/-! ## Tasks -/

/-- A computation that changes a state and can fail, or use up its budget. -/
abbrev Task (σ : Type) := ExceptT Fault (StateT σ Option)

namespace Task

/-- The result and the state behind a task, unless the budget is used up. -/
def on (t : Task σ α) (x : σ) : Option (Except Fault α × σ) := t.run.run x

/-- The budget is used up. -/
def exhausted : Task σ α := ExceptT.mk fun _ => none

/-- A task for the first time that a name comes. Another time there is nothing to do. -/
def firstTime (seen : σ → List String) (n : String) (t : Task σ Unit) : Task σ Unit := do
  if n ∈ seen (← get) then pure () else t

variable {t : Task σ α} {f : α → Task σ β} {x y : σ} {a : α} {e : Fault}

theorem on_bind_ok (h : t.on x = some (.ok a, y)) : (t >>= f).on x = (f a).on y := by
  have hx : t x = some (.ok a, y) := h
  show (t x).bind _ = _
  rw [hx]
  rfl

theorem on_bind_error (h : t.on x = some (.error e, y)) :
    (t >>= f).on x = some (.error e, y) := by
  have hx : t x = some (.error e, y) := h
  show (t x).bind _ = _
  rw [hx]
  rfl

theorem on_firstTime (seen : σ → List String) (n : String) (t : Task σ Unit) (x : σ) :
    (firstTime seen n t).on x = if n ∈ seen x then some (.ok (), x) else t.on x := by
  have hon : (firstTime seen n t).on x = (if n ∈ seen x then pure () else t : Task σ Unit).on x := rfl
  rw [hon]
  split <;> rfl

theorem on_ofExcept (r : Except Fault α) (x : σ) : (ofExcept r : Task σ α).on x = some (r, x) := by
  cases r <;> rfl

end Task

/-! ## Tasks that do errands -/

/-- What it is to do errands from a state on: to do them all, or to stop at a fault. -/
structure Doing (σ ω ρ : Type) where
  run : σ → List (Errand ω) → ρ
  stop : σ → Fault → ρ

/-- **What errands come to** from a state on: to a state from which the rest is to be done, with the
result of the task, or to a fault. -/
inductive Task.Done (d : Doing σ ω ρ) (I : σ → Prop) (x : σ) (todo : List (Errand ω)) (a : α) :
    Option (Except Fault α × σ) → Prop
  | ok {y} : I y → (∀ rest, d.run x (todo ++ rest) = d.run y rest) →
      Done d I x todo a (some (.ok a, y))
  | error {e y} : (∀ rest, d.run x (todo ++ rest) = d.stop y e) →
      Done d I x todo a (some (.error e, y))

namespace Task.Done

variable {d : Doing σ ω ρ} {I J : σ → Prop} {x y : σ} {todo todo' : List (Errand ω)} {a : α} {b : β}
  {r : Option (Except Fault α × σ)}

theorem mono (h : Done d I x todo a r) (hIJ : ∀ y, I y → J y) : Done d J x todo a r := by
  cases h with
  | ok hy hrest => exact .ok (hIJ _ hy) hrest
  | error hrest => exact .error hrest

/-- Other errands from another state on may come to the same. -/
theorem instead (h : Done d I y todo' a r)
    (hrest : ∀ rest, d.run x (todo ++ rest) = d.run y (todo' ++ rest)) : Done d I x todo a r := by
  cases h with
  | ok hz hrest' => exact .ok hz fun rest => (hrest rest).trans (hrest' rest)
  | error hrest' => exact .error fun rest => (hrest rest).trans (hrest' rest)

/-- **First the one task, then the other.** -/
theorem bind {t : Task σ α} {f : α → Task σ β} (h : Done d I x todo a (t.on x))
    (hf : ∀ y, I y → Done d J y todo' b ((f a).on y)) :
    Done d J x (todo ++ todo') b ((t >>= f).on x) := by
  generalize ht : t.on x = r at h
  cases h with
  | ok hy hrest =>
    rw [on_bind_ok ht]
    exact (hf _ hy).instead fun rest => by rw [List.append_assoc, hrest]
  | error hrest =>
    rw [on_bind_error ht]
    exact .error fun rest => by rw [List.append_assoc, hrest]

/-- **What was seen is passed over**, and what was not is done. -/
theorem firstTime {seen : σ → List String} {n : String} {t : Task σ Unit}
    (hold : n ∈ seen x → I x ∧ ∀ rest, d.run x (.go n :: rest) = d.run x rest)
    (hnew : n ∉ seen x → Done d I x [.go n] () (t.on x)) :
    Done d I x [.go n] () ((Task.firstTime seen n t).on x) := by
  rw [on_firstTime]
  split
  · rename_i hn
    exact .ok (hold hn).1 (hold hn).2
  · rename_i hn
    exact hnew hn

end Task.Done

/-- The task does the errands from each state that `I` holds of, and keeps `I`. -/
def Doing.Does (d : Doing σ ω ρ) (I : σ → Prop) (t : Task σ α) (todo : List (Errand ω)) (a : α) :
    Prop := ∀ x, I x → Task.Done d I x todo a (t.on x)

namespace Doing.Does

variable {d : Doing σ ω ρ} {I : σ → Prop} {todo todo' : List (Errand ω)} {a : α} {b : β}

theorem pure (a : α) : d.Does I (Pure.pure a : Task σ α) [] a := fun _ hx => .ok hx fun _ => rfl

theorem bind {t : Task σ α} {f : α → Task σ β} (h : d.Does I t todo a)
    (hf : d.Does I (f a) todo' b) : d.Does I (t >>= f) (todo ++ todo') b :=
  fun x hx => (h x hx).bind hf

/-- What is at hand costs no errand. -/
theorem ofExcept_bind {r : Except Fault α} {f : α → Task σ β} (hr : r = .ok a)
    (hf : d.Does I (f a) todo b) : d.Does I (ofExcept r >>= f) todo b := fun x hx => by
  have hok : (ofExcept r : Task σ α).on x = some (.ok a, x) := by rw [Task.on_ofExcept, hr]
  rw [Task.on_bind_ok hok]
  exact hf x hx

/-- A fault is an errand. -/
theorem ofExcept_error {r : Except Fault α} {f : α → Task σ β} {e : Fault} {o : ω}
    (hstop : ∀ x rest, d.run x (.note o :: rest) = d.stop x e) (hr : r = .error e) :
    d.Does I (ofExcept r >>= f) [.note o] b := fun x hx => by
  have herror : (ofExcept r : Task σ α).on x = some (.error e, x) := by rw [Task.on_ofExcept, hr]
  rw [Task.on_bind_error herror]
  exact .error fun rest => hstop x rest

theorem throw {e : Fault} {o : ω} (hstop : ∀ x rest, d.run x (.note o :: rest) = d.stop x e) :
    d.Does I (MonadExcept.throw e : Task σ α) [.note o] a := fun x _ =>
  .error fun rest => hstop x rest

/-- **Task by task**, for the members of a list. -/
theorem forM {ls : List α} {f : α → Task σ PUnit} {g : α → List (Errand ω)}
    (h : ∀ l ∈ ls, d.Does I (f l) (g l) ⟨⟩) : d.Does I (forM ls f) (ls.flatMap g) ⟨⟩ := by
  induction ls with
  | nil => exact pure PUnit.unit
  | cons l ls ih =>
    rw [List.forM_cons, List.flatMap_cons]
    exact (h l List.mem_cons_self).bind (ih fun l' hl => h l' (List.mem_cons_of_mem _ hl))

end Doing.Does

namespace Story

variable {s : Story} {p q : Passage} {seen : List String} {n : String}

/-! ## Names that were not seen -/

/-- The names of a story that were not seen so far. -/
def unseen (s : Story) (seen : List String) : List String := s.names.filter fun n => n ∉ seen

theorem mem_unseen_iff : n ∈ s.unseen seen ↔ n ∈ s.names ∧ n ∉ seen := by simp [unseen]

theorem unseen_append (s : Story) (seen : List String) (n : String) :
    s.unseen (seen ++ [n]) = (s.unseen seen).erase n :=
  filter_not_mem_concat s.nodup_names seen n

/-- The passage is what is opened under its name, unless this was seen: it is the start, or a
followed link led to it after the start was seen. -/
def Comes (s : Story) (seen : List String) (p : Passage) : Prop :=
  p = s.start ∨ s.start.name ∈ seen ∧ s.find? p.name = some p

theorem Comes.of_follow {l : Link} (hs : s.start.name ∈ seen) (h : s.follow? p l = .ok q) :
    s.Comes seen q := by
  refine .inr ⟨hs, ?_⟩
  rw [follow?_name h]
  exact follow?_eq_ok_iff.1 h

theorem Comes.opening? (h : s.Comes seen p) (hp : p.name ∉ seen) :
    s.opening? p.name = some p := by
  rcases h with rfl | ⟨hs, hfind⟩
  · exact opening?_start
  · have hne : s.start.name ≠ p.name := fun he => hp (he ▸ hs)
    rwa [opening?_of_ne hne]

/-- The start is seen by the time that a passage is. -/
theorem Comes.start_mem (h : s.Comes seen p) (hp : p.name ∈ seen) : s.start.name ∈ seen := by
  rcases h with rfl | ⟨hs, -⟩
  · exact hp
  · exact hs

/-- A passage that is seen is the start, or comes after it. -/
theorem Comes.start_mem_append (h : s.Comes seen p) : s.start.name ∈ seen ++ [p.name] := by
  rcases h with rfl | ⟨hs, -⟩
  · exact List.mem_append_right _ (List.mem_singleton_self _)
  · exact List.mem_append_left _ hs

/-- A name that is seen for the first time is one less to be seen. -/
theorem length_unseen_append (hn : n ∈ s.unseen seen) :
    (s.unseen (seen ++ [n])).length + 1 = (s.unseen seen).length := by
  have hpos := List.length_pos_of_mem hn
  rw [unseen_append, List.length_erase_of_mem hn]
  omega

/-! ## The count of needs -/

/-- What a count of needs has come to. -/
structure Count where
  seen : List String := []
  tally : Tally := {}

/-- A need is counted. -/
def take (o : Need) : Task Count Unit := do
  let t ← ofExcept ((← get).tally.add o)
  modify fun x => { x with tally := t }

/-- A passage is counted, and what its links lead to is visited: all of them as branches at a
prompt, else the first as part of the same one. -/
def count (s : Story) (visit : Bool → Passage → Task Count Unit) (p : Passage) :
    Task Count Unit := do
  let d ← ofExcept p.directive?
  if d.prompt then
    take (.choices p.exits.length)
    forM p.exits fun l => do visit true (← ofExcept (s.follow? p l))
  else
    forM (p.exits.take 1) fun l => do visit false (← ofExcept (s.follow? p l))

/-- A passage is seen, and counted. -/
def expand (s : Story) (visit : Bool → Passage → Task Count Unit) (p : Passage) :
    Task Count Unit := do
  modify fun x => { x with seen := x.seen ++ [p.name] }
  s.count visit p

/-- A visit of a passage, in which no more visits of new names are nested than `depth`. -/
def visitWithin (s : Story) : Nat → Bool → Passage → Task Count Unit
  | depth, opens, p => do
    (if opens then take (.branch p.name) else pure ())
    Task.firstTime Count.seen p.name (match depth with
      | 0 => Task.exhausted
      | depth + 1 => s.expand (visitWithin s depth) p)

/-- The branches and buttons that a story needs, where no more visits are nested than `depth`. -/
def capacityWithin (s : Story) (depth : Nat) : Option (Except Fault Capacity) :=
  ((s.visitWithin depth true s.start).on {}).map fun (r, x) =>
    r.map fun _ => ⟨x.tally.heads.length, x.tally.choices⟩

/-- Counting by errands: the notes of their walk are taken in. -/
def counting (s : Story) : Doing Count Need (Except Fault Tally) where
  run x todo := (walk s.survey (s.unseen x.seen) todo).foldlM Tally.add x.tally
  stop _ f := .error f

/-- The start was seen, and there are no more names left than `depth`. -/
structure Roams (s : Story) (depth : Nat) (x : Count) : Prop where
  start : s.start.name ∈ x.seen
  unseen : (s.unseen x.seen).length ≤ depth

/-- The passage comes when there are no more names left than `depth`. -/
structure Meets (s : Story) (depth : Nat) (p : Passage) (x : Count) : Prop where
  comes : s.Comes x.seen p
  unseen : (s.unseen x.seen).length ≤ depth

/-- A note is taken in before the rest. -/
theorem counting_note (x : Count) (o : Need) (rest : List (Errand Need)) :
    s.counting.run x (.note o :: rest) =
      (x.tally.add o).bind fun t => s.counting.run { x with tally := t } rest := by
  show (walk _ _ (.note o :: rest)).foldlM Tally.add x.tally = _
  rw [walk, List.foldlM_cons]
  rfl

/-- A name that was not seen is surveyed before the rest. -/
theorem counting_go {x : Count} (hn : n ∈ s.unseen x.seen) (rest : List (Errand Need)) :
    s.counting.run x (.go n :: rest) =
      s.counting.run { x with seen := x.seen ++ [n] } (s.survey n ++ rest) := by
  show (walk _ _ (.go n :: rest)).foldlM Tally.add x.tally = _
  rw [walk, if_pos hn, ← unseen_append]
  rfl

theorem take_does {I : Count → Prop} (hI : ∀ x t, I x → I { x with tally := t }) (o : Need) :
    s.counting.Does I (take o) [.note o] () := by
  intro x hx
  have hon : (take o).on x = match x.tally.add o with
      | .ok t => some (.ok (), { x with tally := t })
      | .error f => some (.error f, x) := by
    show ((ofExcept (x.tally.add o) : Task Count Tally) >>= fun t =>
      modify fun x => { x with tally := t }).on x = _
    cases x.tally.add o <;> rfl
  rw [hon]
  cases ho : x.tally.add o with
  | ok t => exact .ok (hI x t hx) fun rest => by rw [List.singleton_append, counting_note, ho]; rfl
  | error f => exact .error fun rest => by rw [List.singleton_append, counting_note, ho]; rfl

/-- A passage that opens a branch is counted as one. -/
theorem opens_does (depth : Nat) (opens : Bool) (p : Passage) :
    s.counting.Does (s.Meets depth p) (if opens then take (.branch p.name) else pure ())
      (if opens then [.note (.branch p.name)] else []) () := by
  cases opens with
  | true => exact take_does (fun _ _ h => ⟨h.comes, h.unseen⟩) _
  | false => exact .pure ()

/-- A name that was seen is passed over. -/
theorem Meets.pass {depth : Nat} {x : Count} (h : s.Meets depth p x) (hseen : p.name ∈ x.seen) :
    s.Roams depth x ∧
      ∀ rest, s.counting.run x (.go p.name :: rest) = s.counting.run x rest := by
  refine ⟨⟨h.comes.start_mem hseen, h.unseen⟩, fun rest => ?_⟩
  show (walk _ _ (.go p.name :: rest)).foldlM Tally.add x.tally = _
  rw [walk, if_neg fun hmem => (mem_unseen_iff.1 hmem).2 hseen]
  rfl

section Visits

variable {depth : Nat} {visit : Bool → Passage → Task Count Unit}
  (hvisit : ∀ opens q x, s.Meets depth q x → Task.Done s.counting (s.Roams depth) x
    ((if opens then [.note (.branch q.name)] else []) ++ [.go q.name]) () ((visit opens q).on x))
include hvisit

/-- A followed link is visited. -/
theorem link_does (l : Link) : s.counting.Does (s.Roams depth)
    (do visit p.isPrompt (← ofExcept (s.follow? p l))) (s.visit p l) () := by
  unfold Story.visit
  cases hq : s.follow? p l with
  | error f => exact .ofExcept_error (fun x rest => counting_note x _ rest) rfl
  | ok q =>
    refine .ofExcept_bind rfl fun x hx => ?_
    exact hvisit _ q x ⟨.of_follow hx.start hq, hx.unseen⟩

/-- A passage is surveyed. -/
theorem survey_does (hp : s.opening? p.name = some p) :
    s.counting.Does (s.Roams depth) (s.count visit p) (s.survey p.name) () := by
  unfold count
  cases hd : p.directive? with
  | error f =>
    rw [survey_of_error hp hd]
    exact .ofExcept_error (fun x rest => counting_note x _ rest) rfl
  | ok d =>
    have hlink := fun l => link_does hvisit (p := p) l
    rw [survey_of_ok hp hd, Passage.followed_of_ok hd]
    rw [Passage.isPrompt_of_ok hd] at hlink ⊢
    refine .ofExcept_bind rfl ?_
    -- a prompt notes its choices before it goes to them
    cases hpr : d.prompt with
    | true =>
      rw [hpr] at hlink
      exact (take_does (fun x t hx => ⟨hx.start, hx.unseen⟩) _).bind (.forM fun l _ => hlink l)
    | false =>
      rw [hpr] at hlink
      exact .forM fun l _ => hlink l

/-- **A passage that is seen for the first time** is surveyed, with one name less left. -/
theorem expand_done {x : Count} (hp : s.Meets (depth + 1) p x) (hnew : p.name ∉ x.seen) :
    Task.Done s.counting (s.Roams depth) x [.go p.name] () ((s.expand visit p).on x) := by
  have hopen := hp.comes.opening? hnew
  have hfresh : p.name ∈ s.unseen x.seen := mem_unseen_iff.2 ⟨mem_names_of_opening? hopen, hnew⟩
  have hleft : (s.unseen (x.seen ++ [p.name])).length ≤ depth := by
    have hlen := length_unseen_append hfresh
    have hbound := hp.unseen
    omega
  have hdone := survey_does hvisit hopen { x with seen := x.seen ++ [p.name] }
    ⟨hp.comes.start_mem_append, hleft⟩
  exact hdone.instead fun rest => counting_go hfresh rest

end Visits

/-- **A visit with depth enough** for all names that are left. -/
theorem visitWithin_done (depth : Nat) (opens : Bool) (p : Passage) (x : Count)
    (hx : s.Meets depth p x) : Task.Done s.counting (s.Roams depth) x
      ((if opens then [.note (.branch p.name)] else []) ++ [.go p.name]) ()
      ((s.visitWithin depth opens p).on x) := by
  induction depth generalizing opens p x with
  | zero =>
    rw [visitWithin]
    refine (opens_does 0 opens p x hx).bind fun y hy => .firstTime hy.pass fun hnew => ?_
    -- there is no new name left
    have hmem := mem_unseen_iff.2 ⟨mem_names_of_opening? (hy.comes.opening? hnew), hnew⟩
    exact absurd (List.length_pos_of_mem hmem) (Nat.not_lt.2 hy.unseen)
  | succ depth ih =>
    rw [visitWithin]
    refine (opens_does (depth + 1) opens p x hx).bind fun y hy => .firstTime hy.pass fun hnew => ?_
    exact (expand_done ih hy hnew).mono fun z hz => ⟨hz.start, Nat.le_succ_of_le hz.unseen⟩

/-- **The names of a story are depth enough** for the count of its needs. -/
theorem capacityWithin_names (s : Story) : s.capacityWithin s.names.length = some s.capacity? := by
  have hall : s.unseen [] = s.names := by simp [unseen]
  have hneeds : s.needs.foldlM Tally.add {} = s.counting.run {} s.surveyStart := by
    show _ = (walk _ (s.unseen []) _).foldlM Tally.add {}
    rw [hall]
    rfl
  have hdone := visitWithin_done s.names.length true s.start {} ⟨.inl rfl, by simp [hall]⟩
  rw [capacityWithin, capacity?, hneeds]
  generalize (s.visitWithin s.names.length true s.start).on {} = r at hdone
  cases hdone with
  | @ok y _ hrest =>
    -- behind the last errand the tally is the count
    have hend : s.counting.run y [] = .ok y.tally := by
      show (walk _ _ []).foldlM Tally.add y.tally = _
      rw [walk]
      rfl
    rw [show s.counting.run {} s.surveyStart = _ from (hrest []).trans hend]
    rfl
  | error hrest =>
    rw [show s.counting.run {} s.surveyStart = _ from hrest []]
    rfl

end Story

end Stagecraft
