import Stagecraft.Proofs.Reading
import Stagecraft.Proofs.Spelling

/-!
# Reading a text with an id in it

A text can be read as it is written, if its escapes are guarded. This gives one tree, and both the
document of the text and the document of the text with an id in it are read from this tree: they
differ in what their keys and texts mean, and in nothing else.

* `Json.Raw.read`, `Json.Builder.foldlM_read`: a tree whose texts are read in other ways, and that
  it is built in the same way.
* `Json.Lexer.Scans`, `Json.Lexer.scans_of_foldlM`: **the tokens of a text**, as it is written and
  with an id in it.
* `Json.exists_raw?`: the tree of a text as it is written.
* `Json.Tied`, `Json.Raw.exists_tied`: documents of one build, and one tree read in two ways.
* `Json.written?`, `Json.tied_of_parse?`: **the document of a text with an id in it**.
-/

namespace Stagecraft

namespace Json

/-! ## Trees with other texts -/

variable {f key text key' text' : String → Option String}

mutual

/-- **A tree whose keys and texts are read in other ways.** -/
def Raw.read (key text : String → Option String) : Raw → Raw
  | .str s => .str (s.bind text)
  | .arr vs => .arr (Raw.readItems key text vs)
  | .obj fs => .obj (Raw.readFields key text fs)
  | .null => .null
  | .bool b => .bool b
  | .num n => .num n

def Raw.readItems (key text : String → Option String) : List Raw → List Raw
  | [] => []
  | v :: vs => v.read key text :: Raw.readItems key text vs

def Raw.readFields (key text : String → Option String) :
    List (Option String × Raw) → List (Option String × Raw)
  | [] => []
  | (k, v) :: fs => (k.bind key, v.read key text) :: Raw.readFields key text fs

end

theorem Raw.readItems_eq_map (vs : List Raw) :
    readItems key text vs = vs.map (Raw.read key text) := by
  induction vs with
  | nil => rfl
  | cons v vs ih => rw [readItems, ih, List.map_cons]

theorem Raw.readFields_eq_map (fs : List (Option String × Raw)) :
    readFields key text fs = fs.map fun e => (e.1.bind key, e.2.read key text) := by
  induction fs with
  | nil => rfl
  | cons e fs ih => rw [readFields, ih, List.map_cons]

/-- A token whose text is read in another way. -/
def Token.read (f : String → Option String) : Token → Token
  | .leaf v => .leaf (v.read f f)
  | t => t

/-- So are the texts of the surroundings of a value. -/
def Frame.read (f : String → Option String) : Frame → Frame
  | .item back => .item (Raw.readItems f f back)
  | .field back key => .field (Raw.readFields f f back) (key.bind f)

def Next.read (f : String → Option String) : Next → Next
  | .afterItem back => .afterItem (Raw.readItems f f back)
  | .key back => .key (Raw.readFields f f back)
  | .colon back key => .colon (Raw.readFields f f back) (key.bind f)
  | .afterField back => .afterField (Raw.readFields f f back)
  | .done v => .done (v.read f f)
  | n => n

namespace Builder

/-- **A tree under construction** whose texts are read in another way. -/
def read (f : String → Option String) (b : Builder) : Builder :=
  ⟨b.frames.map (Frame.read f), b.next.read f⟩

theorem put_read (v : Raw) (fs : List Frame) :
    put (v.read f f) (fs.map (Frame.read f)) = (put v fs).read f := by
  cases fs with
  | nil => rfl
  | cons fr fs => cases fr <;> rfl

theorem begin?_read (fs : List Frame) (t : Token) :
    begin? (fs.map (Frame.read f)) (t.read f) = (begin? fs t).map (read f) := by
  cases t with
  | leaf v =>
    show some (put _ _) = some _
    rw [put_read]
  | _ => rfl

/-- **A token** is taken in the same way, however texts are read. -/
theorem step_read (b : Builder) (t : Token) :
    (b.read f).step (t.read f) = (b.step t).map (read f) := by
  obtain ⟨fs, next⟩ := b
  cases next with
  | value => exact begin?_read fs t
  | itemOrEnd =>
    cases t with
    | closeList => exact congrArg some (put_read (.arr []) fs)
    | leaf v => exact begin?_read (.item [] :: fs) (.leaf v)
    | _ => rfl
  | afterItem back =>
    cases t with
    | closeList =>
      refine (congrArg some ?_).trans (congrArg some (put_read (.arr back.reverse) fs))
      rw [Raw.read, Raw.readItems_eq_map, Raw.readItems_eq_map, List.map_reverse]
      rfl
    | _ => rfl
  | keyOrEnd =>
    cases t with
    | closeObject => exact congrArg some (put_read (.obj []) fs)
    | leaf v => cases v <;> rfl
    | _ => rfl
  | key back =>
    cases t with
    | leaf v => cases v <;> rfl
    | _ => rfl
  | colon back key => cases t <;> rfl
  | afterField back =>
    cases t with
    | closeObject =>
      refine (congrArg some ?_).trans (congrArg some (put_read (.obj back.reverse) fs))
      rw [Raw.read, Raw.readFields_eq_map, Raw.readFields_eq_map, List.map_reverse]
      rfl
    | _ => rfl
  | done v => cases t <;> rfl

/-- **All tokens** are. -/
theorem foldlM_read (b : Builder) (ts : List Token) :
    (ts.map (Token.read f)).foldlM step (b.read f) = (ts.foldlM step b).map (read f) := by
  induction ts generalizing b with
  | nil => rfl
  | cons t ts ih =>
    rw [List.map_cons, List.foldlM_cons, List.foldlM_cons, step_read]
    cases b.step t with
    | none => rfl
    | some c => exact ih c

theorem finish?_read (b : Builder) :
    (b.read f).finish? = b.finish?.map (Raw.read f f) := by
  obtain ⟨fs, next⟩ := b
  cases next <;> rfl

end Builder

/-! ## Texts outside of quotes -/

namespace Lexer

open Placeholder (put)

variable {y s : List Char} {l m : Lexer} {c : Char} {back : List Token} {scan : Scan}
  {ts : List Token}

/-- A reader that is not between quotes. -/
def Scan.Outside : Scan → Prop
  | .gap | .word _ | .number _ => True
  | _ => False

/-- **What a character does outside of quotes** does not depend on the tokens in front of it, and
the tokens that it ends have no text. It is no `$`, and a quote opens a text. -/
structure Apart (scan : Scan) (c : Char) (scan' : Scan) (new : List Token) : Prop where
  step : ∀ back, Lexer.step ⟨scan, back⟩ c = some ⟨scan', new ++ back⟩
  read : ∀ t ∈ new, ∀ f, t.read f = t
  ne_dollar : c ≠ '$'
  goes : if c = '"' then scan' = .quoted [] else Scan.Outside scan'

theorem read_of_word? {t : Token} (h : word? s = some t) (f : String → Option String) :
    t.read f = t := by
  unfold word? at h
  split at h
  · cases h
    rfl
  split at h
  · cases h
    rfl
  split at h
  · cases h
    rfl
  · cases h

theorem read_of_number? {t : Token} (h : number? s = some t) (f : String → Option String) :
    t.read f = t := by
  obtain ⟨n, -, rfl⟩ := Option.map_eq_some_iff.1 h
  rfl

theorem start?_eq (back : List Token) (c : Char) :
    start? back c = (start? [] c).map fun m => ⟨m.scan, m.back ++ back⟩ := by
  unfold start?
  split
  all_goals try rfl
  split
  · rfl
  split
  · rfl
  · rfl

theorem apart_of_start? (hm : start? back c = some m) : ∃ scan' new, Apart .gap c scan' new := by
  rw [start?_eq] at hm
  obtain ⟨m, hm, -⟩ := Option.map_eq_some_iff.1 hm
  have hstep : ∀ back, step ⟨.gap, back⟩ c = some ⟨m.scan, m.back ++ back⟩ := fun back =>
    (start?_eq back c).trans (by rw [hm]; rfl)
  have hne : c ≠ '$' := by
    rintro rfl
    cases hm
  refine ⟨m.scan, m.back, hstep, ?_, hne, ?_⟩
  · unfold start? at hm
    split at hm
    all_goals try (cases hm; simp [Token.read])
    split at hm
    · cases hm
      simp
    split at hm
    · cases hm
      simp
    · cases hm
  · unfold start? at hm
    split at hm
    all_goals try (cases hm; trivial)
    rename_i hquote
    rw [if_neg hquote]
    split at hm
    · cases hm
      trivial
    split at hm
    · cases hm
      trivial
    · cases hm

theorem Apart.behind {t : Token} {scan' : Scan} {new : List Token} (h : Apart .gap c scan' new)
    (ht : ∀ f, t.read f = t) (hstep : ∀ back, Lexer.step ⟨scan, back⟩ c = start? (t :: back) c) :
    Apart scan c scan' (new ++ [t]) where
  step back := by
    rw [hstep, List.append_assoc]
    exact h.step (t :: back)
  read t' ht' f := by
    rcases List.mem_append.1 ht' with ht' | ht'
    · exact h.read t' ht' f
    · rw [List.mem_singleton.1 ht', ht]
  ne_dollar := h.ne_dollar
  goes := h.goes

/-- Every character outside of quotes is such a one. -/
theorem apart_of_step (hscan : Scan.Outside scan) (hm : step ⟨scan, back⟩ c = some m) :
    ∃ scan' new, Apart scan c scan' new := by
  cases takes_of_step hm with
  | start hm => exact apart_of_start? hm
  | @letter b _ hc =>
    refine ⟨.word (c :: b), [], fun _ => if_pos hc, nofun, ?_, ?_⟩
    · rintro rfl
      cases hc
    · rw [if_neg (by rintro rfl; cases hc)]
      trivial
  | wordEnd hc ht hm =>
    obtain ⟨scan', new, h⟩ := apart_of_start? hm
    exact ⟨scan', _, h.behind (read_of_word? ht) fun back => (if_neg hc).trans (by rw [ht]; rfl)⟩
  | @digit b _ hc =>
    refine ⟨.number (c :: b), [], fun _ => if_pos hc, nofun, ?_, ?_⟩
    · rintro rfl
      cases hc
    · rw [if_neg (by rintro rfl; cases hc)]
      trivial
  | numberEnd hc ht hm =>
    obtain ⟨scan', new, h⟩ := apart_of_start? hm
    exact ⟨scan', _, h.behind (read_of_number? ht) fun back => (if_neg hc).trans (by rw [ht]; rfl)⟩
  | quote | backslash | char | unit | escape | lastDigit | hexDigit => exact hscan.elim

/-- **A text read from a reader outside of quotes**: with its escapes guarded it gives tokens with
texts as they are written, and with an id in it the tokens with what these texts mean then. -/
structure Scans (scan : Scan) (s : List Char) (ws : List Token) : Prop where
  guarded : ∀ back, ((guarded false s).foldlM Lexer.step ⟨scan, back⟩).bind finish? =
    some (back.reverse ++ ws)
  put : ∀ y, Unescaped y → ∀ back, ((put y s).foldlM Lexer.step ⟨scan, back⟩).bind finish? =
    some (back.reverse ++ ws.map (Token.read (meaningWith? y)))

theorem map_read_of_forall {new : List Token} {f : String → Option String}
    (h : ∀ t ∈ new, ∀ f, t.read f = t) : new.reverse.map (Token.read f) = new.reverse := by
  rw [List.map_congr_left (g := id) fun t ht => h t (List.mem_reverse.1 ht) f, List.map_id]

/-- At the end of the text. -/
theorem scans_nil (hscan : Scan.Outside scan) (h : finish? ⟨scan, back⟩ = some ts) :
    ∃ ws, Scans scan [] ws := by
  obtain ⟨new, hread, hfinish⟩ : ∃ new : List Token, (∀ t ∈ new, ∀ f, t.read f = t) ∧
      ∀ back, finish? ⟨scan, back⟩ = some (back.reverse ++ new) := by
    cases scan with
    | gap => exact ⟨[], nofun, fun back => by rw [List.append_nil]; rfl⟩
    | word b =>
      obtain ⟨t, ht, -⟩ := Option.map_eq_some_iff.1 h
      refine ⟨[t], fun t' ht' => ?_, fun back => ?_⟩
      · rw [List.mem_singleton.1 ht']
        exact read_of_word? ht
      · simp only [finish?, ht, Option.map_some, List.reverse_cons]
    | number b =>
      obtain ⟨t, ht, -⟩ := Option.map_eq_some_iff.1 h
      refine ⟨[t], fun t' ht' => ?_, fun back => ?_⟩
      · rw [List.mem_singleton.1 ht']
        exact read_of_number? ht
      · simp only [finish?, ht, Option.map_some, List.reverse_cons]
    | quoted | escaped | unit => exact hscan.elim
  refine ⟨new, fun back => ?_, fun y _ back => ?_⟩
  · rw [Json.guarded]
    exact hfinish back
  · rw [Placeholder.put_nil, List.map_congr_left (g := id) fun t ht => hread t ht _, List.map_id]
    exact hfinish back

variable {scan' : Scan} {new ws : List Token} {ps : List Piece} {k r : List Char}

/-- A character that is no quote. -/
theorem Scans.cons (h : Apart scan c scan' new) (hquote : c ≠ '"') (hs : Scans scan' s ws) :
    Scans scan (c :: s) (new.reverse ++ ws) where
  guarded back := by
    rw [guarded_outside hquote, List.foldlM_cons, h.step]
    refine (hs.guarded (new ++ back)).trans ?_
    rw [List.reverse_append, List.append_assoc]
  put y hy back := by
    rw [Placeholder.put_cons_of_ne h.ne_dollar, List.foldlM_cons, h.step]
    refine (hs.put y hy (new ++ back)).trans ?_
    rw [List.reverse_append, List.append_assoc, List.map_append, map_read_of_forall h.read]

/-- A quoted text. -/
theorem Scans.quoted (h : Apart scan '"' (.quoted []) new) (hk : Spells k ps)
    (hr : Scans .gap r ws) : Scans scan ('"' :: (k ++ '"' :: r))
      (new.reverse ++ .leaf (.str (some (String.ofList k))) :: ws) where
  guarded back := by
    obtain ⟨hspells, hrest⟩ := hk.guarded
    have hopen : Json.guarded false ('"' :: (k ++ '"' :: r)) =
        '"' :: (Json.guarded true k ++ '"' :: Json.guarded false r) := by
      rw [← hrest r]
      rfl
    rw [hopen, List.foldlM_cons, h.step]
    show Option.bind (List.foldlM _ _ _) _ = _
    rw [hspells.run_quote, Piece.join?_map_char, Option.map_some, hr.guarded]
    simp
  put y hy back := by
    obtain ⟨qs, hqs, -⟩ := hk.put hy (Nat.le_refl _)
    have hmeaning : meaningWith? y (String.ofList k) = (Piece.join? qs).map String.ofList := by
      rw [meaningWith?, String.toList_ofList, hqs.meaning?]
    rw [Placeholder.put_cons_of_ne (by decide), Placeholder.put_append _ _ (by simp; decide),
      Placeholder.put_cons_of_ne (by decide), List.foldlM_cons, h.step]
    show Option.bind (List.foldlM _ _ _) _ = _
    rw [hqs.run_quote, hr.put y hy, List.map_append, map_read_of_forall h.read, List.map_cons,
      ← hmeaning]
    simp [Token.read, Raw.read]

/-- **Every text that is read outside of quotes** is such a one. -/
theorem scans_of_foldlM {n : Nat} (hn : s.length ≤ n) (hscan : Scan.Outside scan)
    (h : (s.foldlM Lexer.step ⟨scan, back⟩).bind finish? = some ts) : ∃ ws, Scans scan s ws := by
  induction n generalizing s scan back with
  | zero =>
    obtain rfl : s = [] := List.length_eq_zero_iff.1 (Nat.le_zero.1 hn)
    exact scans_nil hscan h
  | succ n ih =>
    rcases s with _ | ⟨c, s⟩
    · exact scans_nil hscan h
    have hs : s.length ≤ n := Nat.le_of_succ_le_succ hn
    obtain ⟨m, hm, hfinish⟩ := Option.bind_eq_some_iff.1 h
    obtain ⟨l, hl, hm⟩ := Option.bind_eq_some_iff.1 hm
    obtain ⟨scan', new, hapart⟩ := apart_of_step hscan hl
    rw [hapart.step, Option.some.injEq] at hl
    subst hl
    have hgoes := hapart.goes
    by_cases hquote : c = '"'
    · subst hquote
      rw [if_pos rfl] at hgoes
      subst hgoes
      -- a text that is read to its end is closed
      cases readFrom_of_foldlM (Nat.le_refl _) hm with
      | within _ hm =>
        subst hm
        cases hfinish
      | escaping hm => cases hm <;> cases hfinish
      | @closed k r ps hk hkr =>
        subst hkr
        rw [hk.run_quote] at hm
        have hr : r.length ≤ n := by
          simp only [List.length_append, List.length_cons] at hs
          omega
        have hgap : Scan.Outside .gap := trivial
        obtain ⟨ws, hws⟩ := ih hr hgap (by rw [hm]; exact hfinish)
        exact ⟨_, .quoted hapart hk hws⟩
    · rw [if_neg hquote] at hgoes
      obtain ⟨ws, hws⟩ := ih hs hgoes (by rw [hm]; exact hfinish)
      exact ⟨_, hws.cons hapart hquote⟩

end Lexer

/-! ## Documents -/

open Placeholder (put)

/-- **The tree of a text as it is written**, and of the text with an id in it. -/
theorem exists_raw? {s : String} {r : Raw} (h : raw? s = some r) :
    ∃ w, raw? (String.ofList (guarded false s.toList)) = some w ∧ ∀ y, Unescaped y →
      raw? (String.ofList (put y s.toList)) = some (w.read (meaningWith? y) (meaningWith? y)) := by
  obtain ⟨b, hb, hr⟩ := Option.bind_eq_some_iff.1 h
  obtain ⟨ts, hts, hb⟩ := Option.bind_eq_some_iff.1 hb
  have hgap : Lexer.Scan.Outside .gap := trivial
  obtain ⟨ws, hws⟩ := Lexer.scans_of_foldlM (Nat.le_refl _) hgap hts
  have hread : ∀ y, Unescaped y → raw? (String.ofList (put y s.toList)) =
      ((ws.foldlM Builder.step {}).bind Builder.finish?).map
        (Raw.read (meaningWith? y) (meaningWith? y)) := by
    intro y hy
    have htokens : tokens? (put y s.toList) = some (ws.map (Token.read (meaningWith? y))) :=
      hws.put y hy []
    have hbuild := Builder.foldlM_read (f := meaningWith? y) {} ws
    rw [raw?_ofList, htokens, Option.bind_some]
    refine (congrArg (Option.bind · Builder.finish?) hbuild).trans ?_
    cases ws.foldlM Builder.step {} with
    | none => rfl
    | some c => exact Builder.finish?_read c
  -- the placeholder in its own place shows that there is a tree
  have hself := hread idMark (by decide)
  rw [idMark, Placeholder.put_self, String.ofList_toList, h] at hself
  obtain ⟨w, hw, -⟩ := Option.map_eq_some_iff.1 hself.symm
  refine ⟨w, ?_, fun y hy => by rw [hread y hy, hw]; rfl⟩
  have htokens : tokens? (guarded false s.toList) = some ws := hws.guarded []
  rw [raw?_ofList, htokens]
  exact hw

/-- A text that can be read in one way can be read in another one, which relates to it by `P`. -/
def Leads (P : String → String → Prop) (f g : String → Option String) : Prop :=
  ∀ k s, f k = some s → ∃ s', g k = some s' ∧ P s s'

/-- **Documents of one build**: only their keys and texts differ, the keys as `K` and the texts as
`T` tell. Of keys that become the same the last value counts. -/
inductive Tied (K T : String → String → Prop) : Json → Json → Prop where
  | null : Tied K T .null .null
  | bool (b : Bool) : Tied K T (.bool b) (.bool b)
  | num (n : Number) : Tied K T (.num n) (.num n)
  | str {s s' : String} (h : T s s') : Tied K T (.str s) (.str s')
  | arr {vs vs' : List Json} (h : List.Forall₂ (Tied K T) vs vs') : Tied K T (.arr vs) (.arr vs')
  | obj {es es' : List (String × Json)} (hkeys : List.Forall₂ (fun e e' => K e.1 e'.1) es es')
      (h : List.Forall₂ (fun e e' => Tied K T e.2 e'.2) es es') :
      Tied K T (ofEntries es) (ofEntries es')

namespace Raw

variable {K T : String → String → Prop} {depth : Nat}

mutual

/-- **One tree read in two ways** gives documents of one build. -/
theorem exists_tied (hkey : Leads K key key') (htext : Leads T text text') :
    ∀ (r : Raw) {depth : Nat} {v : Json}, (r.read key text).value? depth = some v →
      ∃ v', (r.read key' text').value? depth = some v' ∧ Tied K T v v'
  | .null, _, v, h => by
    rw [read, value?] at h
    cases h
    exact ⟨.null, rfl, .null⟩
  | .bool b, _, v, h => by
    rw [read, value?] at h
    cases h
    exact ⟨.bool b, rfl, .bool b⟩
  | .num n, _, v, h => by
    rw [read, value?] at h
    obtain ⟨n, rfl, rfl⟩ := Option.map_eq_some_iff.1 h
    exact ⟨.num n, rfl, .num n⟩
  | .str k, _, v, h => by
    rw [read, value?] at h
    obtain ⟨s, hs, rfl⟩ := Option.map_eq_some_iff.1 h
    obtain ⟨k, rfl, hk⟩ := Option.bind_eq_some_iff.1 hs
    obtain ⟨s', hs', hT⟩ := htext k s hk
    refine ⟨.str s', ?_, .str hT⟩
    rw [read, value?, Option.bind_some, hs']
    rfl
  | .arr vs, depth, v, h => by
    cases depth with
    | zero => cases h
    | succ depth =>
      rw [read, value?] at h
      obtain ⟨ws, hws, rfl⟩ := Option.map_eq_some_iff.1 h
      obtain ⟨ws', hws', hall⟩ := exists_tied_items hkey htext vs hws
      refine ⟨.arr ws', ?_, .arr hall⟩
      rw [read, value?, hws']
      rfl
  | .obj fs, depth, v, h => by
    cases depth with
    | zero => cases h
    | succ depth =>
      rw [read, value?] at h
      obtain ⟨es, hes, rfl⟩ := Option.map_eq_some_iff.1 h
      obtain ⟨es', hes', hkeys, hall⟩ := exists_tied_fields hkey htext fs hes
      refine ⟨ofEntries es', ?_, .obj hkeys hall⟩
      rw [read, value?, hes']
      rfl

theorem exists_tied_items (hkey : Leads K key key') (htext : Leads T text text') :
    ∀ (vs : List Raw) {depth : Nat} {ws : List Json},
      values? depth (readItems key text vs) = some ws →
      ∃ ws', values? depth (readItems key' text' vs) = some ws' ∧ List.Forall₂ (Tied K T) ws ws'
  | [], _, _, h => by
    cases h
    exact ⟨[], rfl, .nil⟩
  | v :: vs, depth, _, h => by
    simp only [readItems, values?, Option.bind_eq_bind, Option.bind_eq_some_iff] at h
    obtain ⟨w, hw, ws, hws, hcons⟩ := h
    cases hcons
    obtain ⟨w', hw', htied⟩ := exists_tied hkey htext v hw
    obtain ⟨ws', hws', hall⟩ := exists_tied_items hkey htext vs hws
    exact ⟨w' :: ws', by rw [readItems, values?, hw', hws']; rfl, .cons htied hall⟩

theorem exists_tied_fields (hkey : Leads K key key') (htext : Leads T text text') :
    ∀ (fs : List (Option String × Raw)) {depth : Nat} {es : List (String × Json)},
      entries? depth (readFields key text fs) = some es →
      ∃ es', entries? depth (readFields key' text' fs) = some es' ∧
        List.Forall₂ (fun e e' => K e.1 e'.1) es es' ∧
        List.Forall₂ (fun e e' => Tied K T e.2 e'.2) es es'
  | [], _, _, h => by
    cases h
    exact ⟨[], rfl, .nil, .nil⟩
  | (k, v) :: fs, depth, _, h => by
    simp only [readFields, entries?, Option.bind_eq_bind, Option.bind_eq_some_iff] at h
    obtain ⟨s, ⟨k, rfl, hk⟩, w, hw, es, hes, hcons⟩ := h
    cases hcons
    obtain ⟨s', hs', hK⟩ := hkey k s hk
    obtain ⟨w', hw', htied⟩ := exists_tied hkey htext v hw
    obtain ⟨es', hes', hkeys, hall⟩ := exists_tied_fields hkey htext fs hes
    refine ⟨(s', w') :: es', ?_, .cons hK hkeys, .cons htied hall⟩
    rw [readFields, entries?, hw', hes', Option.bind_some, hs']
    rfl

end

end Raw

/-! ## The document of a text with an id in it -/

/-- A text that has a meaning, as it is written. -/
def asWritten? (k : String) : Option String := (meaning? k).map fun _ => k

/-- **The document of a text, with its texts as they are written.** Its keys are those that are
meant. -/
def written? (s : String) : Option Json :=
  ((raw? (String.ofList (guarded false s.toList))).map (Raw.read meaning? asWritten?)).bind
    (Raw.value? maxDepth)

/-- `y` is put into a text. -/
def PutsIn (y : List Char) (s s' : String) : Prop := Puts y s.toList s'.toList

/-- What a text means that is written as `k`, with `y` in it: the placeholder means `y`. -/
def Becomes (y : List Char) (k s : String) : Prop := k = String.ofList idMark → s = String.ofList y

/-- **The document of a text with an id in it**, and the document of the text as it is written. All
three have one build. -/
theorem tied_of_parse? {s : String} {v : Json} {y : List Char} (hy : Unescaped y)
    (h : parse? s = some v) : ∃ u v', written? s = some u ∧
      parse? (String.ofList (put y s.toList)) = some v' ∧ Tied Eq (fun _ _ => True) v u ∧
      Tied (PutsIn y) (fun _ _ => True) v v' ∧ Tied (PutsIn y) (Becomes y) u v' := by
  obtain ⟨r, hr, hv⟩ := Option.bind_eq_some_iff.1 h
  obtain ⟨w, hw, hread⟩ := exists_raw? hr
  have hself : raw? s = some (w.read meaning? meaning?) := by
    have hmark := hread idMark (by decide)
    rwa [idMark, Placeholder.put_self, String.ofList_toList, ← idMark, meaningWith?_self] at hmark
  rw [hself, Option.some.injEq] at hr
  subst hr
  -- the one tree is read in three ways
  have hkey : Leads (PutsIn y) meaning? (meaningWith? y) := fun k s hs => exists_meaningWith? hy hs
  have hplain : Leads (fun _ _ => True) meaning? (meaningWith? y) := fun k s hs => by
    obtain ⟨s', hs', -⟩ := exists_meaningWith? hy hs
    exact ⟨s', hs', trivial⟩
  have hsame : Leads Eq meaning? meaning? := fun k s hs => ⟨s, hs, rfl⟩
  have hshown : Leads (fun _ _ => True) meaning? asWritten? := fun k s hs =>
    ⟨k, by rw [asWritten?, hs]; rfl, trivial⟩
  have hbecomes : Leads (Becomes y) asWritten? (meaningWith? y) := fun k s hs => by
    obtain ⟨m, hm, rfl⟩ := Option.map_eq_some_iff.1 hs
    obtain ⟨s', hs', -⟩ := exists_meaningWith? hy hm
    refine ⟨s', hs', fun hmark => ?_⟩
    rw [hmark, meaningWith?_mark hy] at hs'
    exact (Option.some.inj hs').symm
  obtain ⟨u, hu, hvu⟩ := Raw.exists_tied hsame hshown w hv
  obtain ⟨v', hv', hvv'⟩ := Raw.exists_tied hkey hplain w hv
  obtain ⟨v'', hv'', huv'⟩ := Raw.exists_tied hkey hbecomes w hu
  rw [hv', Option.some.injEq] at hv''
  subst hv''
  refine ⟨u, v', ?_, ?_, hvu, hvv', huv'⟩
  · rw [written?, hw]
    exact hu
  · rw [parse?, hread y hy]
    exact hv'

end Json

end Stagecraft
