import SchemaScript.Revision.Alterations

/-!
# Folding statements into others

A revision goes through the positions of a script. A statement that has a target is taken up by the
statement at that position, and something of it may be left.

* `Folding` — which statements are folded into which, and what comes of both.
* `Folding.slots` — the statements of a script when those before a position have been folded.
* `Folding.step_slots`, `Folding.run_slots` — one position and a whole run.
* `revised` — a list in which what becomes of a statement depends on what is behind it.
-/

set_option autoImplicit false

namespace SchemaScript

/-- A way of folding some statements into others. -/
structure Folding where
  /-- The position of the statement that a statement is folded into, if it is folded. -/
  target? : Statement → Option Nat
  /-- A statement when another has been folded into it. -/
  into : Statement → Statement → Statement
  /-- What is left of a statement that is folded. -/
  rest? : Statement → Option Statement
  /-- What is noted of a statement into which another is folded. -/
  note? : Statement → Statement → Option Warning

namespace Folding

variable (F : Folding) (statements : List Statement)

/-- Those of some statements that are folded into the one at a position. -/
def folded (p : Nat) (xs : List Statement) : List Statement :=
  xs.filter fun x => F.target? x == some p

/-- What stands at a position, where a statement stood, when the statements before another position
have been folded. -/
def slotAt (k p : Nat) (st : Statement) : Option Statement :=
  match F.target? st with
  | some _ => if p < k then F.rest? st else some st
  | none => some ((F.folded p (statements.take k)).foldl F.into st)

/-- The statements when those before a position have been folded. -/
def slots (k : Nat) : Slots := statements.mapIdx (F.slotAt statements k)

/-- Folds the statement at a position. -/
def step (slots : Slots) (k : Nat) (st : Statement) : Noted Slots :=
  match F.target? st with
  | none => ⟨slots, []⟩
  | some q =>
    match slots[q]? with
    | some (some r) => ⟨(slots.set q (some (F.into r st))).set k (F.rest? st), (F.note? r st).toList⟩
    | _ => ⟨slots, []⟩

/-- What is noted of a statement. -/
def noteOf (st : Statement) : Option Warning :=
  (F.target? st).bind fun q => statements[q]?.bind fun r => F.note? r st

/-- A target is a statement that stays, and what is noted of it does not depend on what it has taken
up. -/
structure Sound : Prop where
  stays {st : Statement} {q : Nat} : F.target? st = some q →
    ∃ r, statements[q]? = some r ∧ F.target? r = none
  note_into (r x st : Statement) : F.note? (F.into r x) st = F.note? r st

variable {F statements} {k p : Nat} {st : Statement}

theorem getElem?_slots :
    (F.slots statements k)[p]? = statements[p]?.map (F.slotAt statements k p) :=
  List.getElem?_mapIdx

theorem slots_zero : F.slots statements 0 = statements.map some := by
  apply List.ext_getElem?
  intro p
  rw [getElem?_slots, List.getElem?_map]
  congr 1
  funext st
  unfold slotAt
  cases F.target? st <;> simp [folded]

theorem folded_take_succ (hst : statements[k]? = some st) :
    F.folded p (statements.take (k + 1)) =
      F.folded p (statements.take k) ++ if F.target? st = some p then [st] else [] := by
  rw [List.take_add_one, hst, folded, List.filter_append, ← folded]
  by_cases h : F.target? st = some p
  · simp [h]
  · simp [h]

theorem slotAt_succ_of_ne (hst : statements[k]? = some st) (hp : p ≠ k)
    (hq : F.target? st ≠ some p) (x : Statement) :
    F.slotAt statements (k + 1) p x = F.slotAt statements k p x := by
  unfold slotAt
  cases F.target? x with
  | none => simp only [folded_take_succ hst, if_neg hq, List.append_nil]
  | some q =>
    have hlt : p < k + 1 ↔ p < k := by omega
    simp only [hlt]

/-- A statement without a target changes nothing. -/
theorem slots_succ_of_none (hst : statements[k]? = some st) (hnone : F.target? st = none) :
    F.slots statements (k + 1) = F.slots statements k := by
  apply List.ext_getElem?
  intro p
  rw [getElem?_slots, getElem?_slots]
  by_cases hp : p = k
  · subst hp
    simp [hst, slotAt, hnone, folded_take_succ hst]
  · rw [funext (slotAt_succ_of_ne hst hp (by simp [hnone]))]

/-- A statement with a target leaves its rest, and the target takes it up. -/
theorem slots_succ_of_some {q : Nat} {r : Statement} (hst : statements[k]? = some st)
    (htarget : F.target? st = some q) (hr : statements[q]? = some r) (hstays : F.target? r = none) :
    F.slots statements (k + 1) =
      ((F.slots statements k).set q
        (some (F.into ((F.folded q (statements.take k)).foldl F.into r) st))).set k (F.rest? st) := by
  have hqk : q ≠ k := by
    rintro rfl
    obtain rfl : r = st := by simpa using hr.symm.trans hst
    simp [hstays] at htarget
  have hlength : (F.slots statements k).length = statements.length := List.length_mapIdx
  have hk : k < statements.length := (List.getElem?_eq_some_iff.mp hst).1
  have hq : q < statements.length := (List.getElem?_eq_some_iff.mp hr).1
  apply List.ext_getElem?
  intro p
  rw [getElem?_slots, List.getElem?_set, List.getElem?_set, List.length_set, hlength]
  by_cases hp : p = k
  · subst hp
    rw [hst, if_pos rfl, if_pos hk]
    simp [slotAt, htarget]
  by_cases hpq : p = q
  · subst hpq
    rw [hr, if_neg (Ne.symm hp), if_pos rfl, if_pos hq]
    simp [slotAt, hstays, folded_take_succ hst, htarget]
  · rw [if_neg (Ne.symm hp), if_neg (Ne.symm hpq), getElem?_slots,
      funext (slotAt_succ_of_ne hst hp (by simpa [htarget] using Ne.symm hpq))]

/-- What a statement has taken up, when it is a value that takes up values of one kind. -/
theorem foldl_into {α β : Type} {make : α → Statement} {get? : Statement → Option β}
    {extend : α → List β → α} (hnil : ∀ a, extend a [] = a)
    (happend : ∀ a bs cs, extend a (bs ++ cs) = extend (extend a bs) cs)
    (hinto : ∀ a x, F.into (make a) x = make (extend a (get? x).toList)) (xs : List Statement) (a : α) :
    xs.foldl F.into (make a) = make (extend a (xs.filterMap get?)) := by
  induction xs generalizing a with
  | nil => rw [List.foldl_nil, List.filterMap_nil, hnil]
  | cons x xs ih =>
    have hcons : (x :: xs).filterMap get? = (get? x).toList ++ xs.filterMap get? := by
      cases h : get? x <;> simp [h]
    rw [List.foldl_cons, hinto, ih, hcons, happend]

theorem foldl_into_self (h : ∀ x, F.into st x = st) (xs : List Statement) :
    xs.foldl F.into st = st := by
  induction xs with
  | nil => rfl
  | cons x xs ih => rw [List.foldl_cons, h, ih]

/-- The values of one kind that are folded into the statement at a position. -/
theorem filterMap_folded {β : Type} {make : β → Statement} {get? : Statement → Option β}
    (hget : ∀ x b, get? x = some b → x = make b) (xs : List Statement) :
    (F.folded p xs).filterMap get? =
      (xs.filterMap get?).filter fun b => F.target? (make b) == some p := by
  rw [folded, List.filterMap_filter, List.filter_filterMap]
  congr 1
  funext x
  cases h : get? x with
  | none => simp
  | some b => simp [hget x b h, Option.filter]

theorem foldl_note (h : F.Sound statements) (xs : List Statement) (r : Statement) :
    F.note? (xs.foldl F.into r) st = F.note? r st := by
  induction xs generalizing r with
  | nil => rfl
  | cons x xs ih => rw [List.foldl_cons, ih, h.note_into]

theorem step_of_none (h : F.target? st = none) (slots : Slots) : F.step slots k st = ⟨slots, []⟩ := by
  rw [step, h]

theorem step_of_some {slots : Slots} {q : Nat} {r : Statement} (h : F.target? st = some q)
    (hr : slots[q]? = some (some r)) : F.step slots k st =
      ⟨(slots.set q (some (F.into r st))).set k (F.rest? st), (F.note? r st).toList⟩ := by
  simp only [step, h, hr]

/-- **One position further.** -/
theorem step_slots (h : F.Sound statements) (hst : statements[k]? = some st) :
    F.step (F.slots statements k) k st =
      ⟨F.slots statements (k + 1), (F.noteOf statements st).toList⟩ := by
  cases htarget : F.target? st with
  | none =>
    rw [slots_succ_of_none hst htarget, step_of_none htarget]
    simp [noteOf, htarget]
  | some q =>
    obtain ⟨r, hr, hstays⟩ := h.stays htarget
    have hslot : (F.slots statements k)[q]? =
        some (some ((F.folded q (statements.take k)).foldl F.into r)) := by
      simp [getElem?_slots, hr, slotAt, hstays]
    rw [slots_succ_of_some hst htarget hr hstays, step_of_some htarget hslot]
    simp [noteOf, htarget, hr, foldl_note h]

/-- **A run through the positions of a script folds every statement that has a target.** Positions
without a target may be left out. -/
theorem run_slots (h : F.Sound statements) {keep : Nat → Bool} {f : Slots → Nat → Noted Slots}
    (hkeep : ∀ k st, statements[k]? = some st → keep k = true →
      f (F.slots statements k) k = F.step (F.slots statements k) k st)
    (hskip : ∀ k st, statements[k]? = some st → keep k = false → F.target? st = none) :
    ((List.range statements.length).filter keep).foldlM f (statements.map some) =
      ⟨F.slots statements statements.length, statements.filterMap (F.noteOf statements)⟩ := by
  have hrun : ∀ n ≤ statements.length,
      ((List.range n).filter keep).foldlM f (statements.map some) =
        ⟨F.slots statements n, (statements.take n).filterMap (F.noteOf statements)⟩ := by
    intro n
    induction n with
    | zero => intro _; rw [slots_zero]; rfl
    | succ n ih =>
      intro hn
      have hst : statements[n]? = some statements[n] := List.getElem?_eq_getElem hn
      rw [List.range_succ, List.filter_append, List.foldlM_append, ih (Nat.le_of_lt hn),
        List.take_add_one, hst, List.filterMap_append]
      cases hk : keep n with
      | true =>
        have hstep := (hkeep n _ hst hk).trans (step_slots h hst)
        simp only [hk, bind, hstep, List.filter_cons_of_pos, List.filter_nil, List.foldlM_cons]
        cases hnote : F.noteOf statements statements[n] <;> simp [hnote]
      | false =>
        have hnone := hskip n _ hst hk
        rw [slots_succ_of_none hst hnone]
        simp [hk, bind, noteOf, hnone]
  have hall := hrun statements.length (Nat.le_refl _)
  rwa [List.take_length] at hall

end Folding

/-! ## Lists revised -/

/-- What becomes of each statement of a list, given the statements behind it. -/
def revised (f : List Statement → Statement → Option Statement) : List Statement → List Statement
  | [] => []
  | st :: later => (f later st).toList ++ revised f later

/-- What becomes of statements by position is what becomes of them by what is behind them. -/
theorem filterMap_mapIdx {f : List Statement → Statement → Option Statement}
    {statements : List Statement} {g : Nat → Statement → Option Statement}
    (h : ∀ p st, statements[p]? = some st → g p st = f (statements.drop (p + 1)) st) :
    (statements.mapIdx g).filterMap id = revised f statements := by
  induction statements generalizing g with
  | nil => rfl
  | cons st later ih =>
    rw [List.mapIdx_cons, revised, ← ih (fun p st hst => h (p + 1) st hst), h 0 st rfl]
    cases hst : f later st <;> simp [hst]

section Revised

variable {f : List Statement → Statement → Option Statement} {xs : List Statement}

theorem exists_of_mem_revised {st : Statement} (h : st ∈ revised f xs) :
    ∃ later, ∃ x ∈ xs, f later x = some st := by
  induction xs with
  | nil => cases h
  | cons x later ih =>
    rcases List.mem_append.mp h with h | h
    · exact ⟨later, x, List.mem_cons_self, Option.mem_toList.mp h⟩
    · obtain ⟨later', x', hx', hf⟩ := ih h
      exact ⟨later', x', List.mem_cons_of_mem x hx', hf⟩

theorem revised_eq_self (h : ∀ later, ∀ x ∈ xs, f later x = some x) : revised f xs = xs := by
  induction xs with
  | nil => rfl
  | cons x later ih =>
    rw [revised, h later x List.mem_cons_self, ih fun l y hy => h l y (List.mem_cons_of_mem x hy)]
    rfl

/-- What is read off a revised list, when it is the same for each statement as for what becomes of
it. -/
theorem filterMap_revised {α : Type} {g : Statement → Option α}
    (h : ∀ later x, (f later x).bind g = g x) : (revised f xs).filterMap g = xs.filterMap g := by
  induction xs with
  | nil => rfl
  | cons x later ih =>
    have hx := h later x
    rw [revised, List.filterMap_append, ih]
    cases hf : f later x with
    | none => simp_all
    | some st =>
      rw [hf, Option.bind_some] at hx
      cases hg : g x <;> simp_all

theorem flatMap_revised {α : Type} {g g' : Statement → List α}
    (h : ∀ later, ∀ x ∈ xs, (f later x).toList.flatMap g = g' x) :
    (revised f xs).flatMap g = xs.flatMap g' := by
  induction xs with
  | nil => rfl
  | cons x later ih =>
    rw [revised, List.flatMap_append, h later x List.mem_cons_self,
      ih fun l y hy => h l y (List.mem_cons_of_mem x hy), List.flatMap_cons]

/-- A statement in a revised list, with what is before and behind it, comes of one in the list. -/
theorem revised_eq_append_cons {before after : List Statement} {st : Statement} :
    revised f xs = before ++ st :: after ↔ ∃ earlier x later, xs = earlier ++ x :: later ∧
      f later x = some st ∧ before = revised (fun l => f (l ++ x :: later)) earlier ∧
        after = revised f later := by
  induction xs generalizing f before with
  | nil => simp [revised]
  | cons y ys ih =>
    constructor
    · intro h
      cases hy : f ys y with
      | none =>
        rw [revised, hy, Option.toList_none, List.nil_append, ih] at h
        obtain ⟨earlier, x, later, rfl, hx, rfl, rfl⟩ := h
        exact ⟨y :: earlier, x, later, rfl, hx, by simp [revised, hy], rfl⟩
      | some y' =>
        rw [revised, hy, Option.toList_some, List.singleton_append] at h
        cases before with
        | nil =>
          obtain ⟨rfl, rfl⟩ := List.cons_eq_cons.mp h
          exact ⟨[], y, ys, rfl, hy, rfl, rfl⟩
        | cons b before =>
          obtain ⟨rfl, htail⟩ := List.cons_eq_cons.mp h
          obtain ⟨earlier, x, later, rfl, hx, rfl, rfl⟩ := ih.mp htail
          exact ⟨y :: earlier, x, later, rfl, hx, by simp [revised, hy], rfl⟩
    · rintro ⟨earlier, x, later, hsplit, hx, rfl, rfl⟩
      cases earlier with
      | nil =>
        obtain ⟨rfl, rfl⟩ := List.cons_eq_cons.mp hsplit
        simp [revised, hx]
      | cons e earlier =>
        obtain ⟨rfl, rfl⟩ := List.cons_eq_cons.mp (hsplit.trans List.cons_append)
        have htail := ih.mpr ⟨earlier, x, later, rfl, hx, rfl, rfl⟩
        rw [revised, htail, revised, List.append_assoc]

theorem revised_some (g : Statement → Statement) (xs : List Statement) :
    revised (fun _ st => some (g st)) xs = xs.map g := by
  induction xs with
  | nil => rfl
  | cons x xs ih => rw [revised, ih]; rfl

end Revised

end SchemaScript
