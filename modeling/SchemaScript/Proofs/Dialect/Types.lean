import Mathlib.Data.Nat.Digits.Defs
import SchemaScript.Dialect.Target
import SchemaScript.Proofs.Text

/-!
# Types in a dialect

A type that goes from one dialect to the other and back may change on its first journey, and never
again: every type that Postgres gives to another comes back from Oracle as it was.

* `Postgres.number_of_digits` — the integer type for a number of digits, if there is one.
* `Postgres.Native`, `Oracle.Native` — the types that a dialect gives to others.
* `Postgres.nativeType_cases`, `Oracle.nativeType_cases` — a dialect keeps a type, or gives it a
  native one.
* `Postgres.Native.returns` — the native types of Postgres survive the way through Oracle.
* `nativeType_settles` — what follows for journeys of any length.
-/

set_option autoImplicit false

namespace SchemaScript

/-! ## Decimal numbers -/

namespace Text

/-- The number that decimal digits stand for. -/
def decimalValue (cs : List Char) : Nat :=
  Nat.ofDigits 10 (cs.map fun c => c.toNat - '0'.toNat).reverse

/-- The number that comes of a number with decimal digits written behind it. -/
def withDigits (n : Nat) (cs : List Char) : Nat :=
  cs.foldl (fun n c => n * 10 + (c.toNat - '0'.toNat)) n

theorem withDigits_cons (n : Nat) (c : Char) (cs : List Char) :
    withDigits n (c :: cs) = withDigits (n * 10 + (c.toNat - '0'.toNat)) cs :=
  List.foldl_cons ..

theorem withDigits_zero (cs : List Char) : withDigits 0 cs = decimalValue cs := by
  have hstep : (fun (n : Nat) (c : Char) => (c.toNat - '0'.toNat) + 10 * n) =
      fun n c => n * 10 + (c.toNat - '0'.toNat) := by
    funext n c
    omega
  rw [decimalValue, Nat.ofDigits_eq_foldr, List.foldr_reverse, List.foldl_map, withDigits, ← hstep]
  rfl

/-- Digits behind a number never make it smaller. -/
theorem le_withDigits (n : Nat) (cs : List Char) : n ≤ withDigits n cs := by
  induction cs generalizing n with
  | nil => exact Nat.le_refl n
  | cons c cs ih =>
    have hlater := ih (n * 10 + (c.toNat - '0'.toNat))
    rw [withDigits_cons]
    omega

theorem isBlank_of_isDigit {c : Char} (h : c.isDigit) : isBlank c = false := by
  have hn : 48 ≤ c.toNat ∧ c.toNat ≤ 57 := by
    unfold Char.isDigit at h
    simpa [UInt32.le_iff_toNat_le] using h
  simp only [isBlank, Bool.or_eq_false_iff, Bool.and_eq_false_iff, decide_eq_false_iff_not,
    beq_eq_false_iff_ne]
  omega

end Text

namespace Postgres

/-- Digits behind a number of 32 bits are read if what comes of them fits into its bits. Where it
does not fit after some of them, it does not after all. -/
theorem foldlM_appendDigit? {cs : List Char} (hall : ∀ c ∈ cs, c.isDigit) (n : UInt32) :
    cs.foldlM appendDigit? n =
      if Text.withDigits n.toNat cs < UInt32.size then some (.ofNat (Text.withDigits n.toNat cs))
      else none := by
  induction cs generalizing n with
  | nil => simp [Text.withDigits, n.toNat_lt_size]
  | cons c cs ih =>
    have hlater := ih fun d hd => hall d (List.mem_cons_of_mem _ hd)
    rw [List.foldlM_cons, appendDigit?, if_pos (hall c List.mem_cons_self), Text.withDigits_cons]
    by_cases hfits : n.toNat * 10 + (c.toNat - '0'.toNat) < UInt32.size
    · rw [if_pos hfits, Option.bind_eq_bind, Option.bind_some, hlater,
        UInt32.toNat_ofNat_of_lt' hfits]
    · have hgrows := Text.le_withDigits (n.toNat * 10 + (c.toNat - '0'.toNat)) cs
      rw [if_neg hfits, if_neg (by omega)]
      rfl

/-- A run of digits is read if the number it stands for fits into 32 bits. -/
theorem decimal?_of_digits {cs : List Char} (hne : cs ≠ []) (hall : ∀ c ∈ cs, c.isDigit) :
    decimal? cs = if Text.decimalValue cs < UInt32.size then some (.ofNat (Text.decimalValue cs))
      else none := by
  have hplus : cs.head? ≠ some '+' := by
    intro h
    exact absurd (hall '+' (List.mem_of_mem_head? h)) (by decide)
  rw [← Text.withDigits_zero, decimal?, if_neg hplus, if_neg hne, foldlM_appendDigit? hall]
  rfl

/-! ## Numbers -/

/-- The integer type that holds as many digits as a number asks for, and a numeric of the same
precision where there is none. -/
theorem number_of_digits {digits : String} (hne : digits ≠ "")
    (hall : ∀ c ∈ digits.toList, c.isDigit) :
    number (some digits) =
      if 1 ≤ Text.decimalValue digits.toList ∧ Text.decimalValue digits.toList ≤ 5 then
        ⟨"SMALLINT", none⟩
      else if 6 ≤ Text.decimalValue digits.toList ∧ Text.decimalValue digits.toList ≤ 10 then
        ⟨"INTEGER", none⟩
      else if 11 ≤ Text.decimalValue digits.toList ∧ Text.decimalValue digits.toList ≤ 19 then
        ⟨"BIGINT", none⟩
      else ⟨"NUMERIC", some digits⟩ := by
  have hne : digits.toList ≠ [] := by simpa using hne
  have hblank : ∀ c ∈ digits.toList, Text.isBlank c = false := fun c hc =>
    Text.isBlank_of_isDigit (hall c hc)
  have htrim : Text.trimChars Text.isBlank digits.toList = digits.toList :=
    Text.trimChars_eq_self (fun c hc => hblank c (List.mem_of_mem_head? hc))
      fun c hc => hblank c (List.mem_of_mem_getLast? hc)
  rw [number, htrim, decimal?_of_digits hne hall]
  generalize Text.decimalValue digits.toList = v
  by_cases hfits : v < UInt32.size
  · have hword : (UInt32.ofNat v).toNat = v := UInt32.toNat_ofNat_of_lt' hfits
    simp only [if_pos hfits, ← UInt32.toNat_inj, UInt32.le_iff_toNat_le, hword]
    grind
  · -- a number that does not fit is longer than those of the integer types
    have hlarge : 19 < v := Nat.lt_of_lt_of_le (by decide) (Nat.not_lt.mp hfits)
    simp only [if_neg hfits]
    grind

/-- A number is of an integer type, or a numeric of its precision. -/
theorem number_cases (p : Option String) :
    number p = ⟨"NUMERIC", p⟩ ∨ number p = ⟨"SMALLINT", none⟩ ∨ number p = ⟨"INTEGER", none⟩ ∨
      number p = ⟨"BIGINT", none⟩ := by
  cases p with
  | none => exact .inl rfl
  | some p =>
    rw [number]
    cases decimal? (Text.trimChars Text.isBlank p.toList) with
    | none => exact .inl rfl
    | some digits =>
      dsimp only
      split_ifs <;> simp

end Postgres

/-! ## Native types -/

/-- The types that Postgres gives to others. -/
inductive Postgres.Native : DataType → Prop
  | varchar (p : String) : Native ⟨"VARCHAR", some p⟩
  | text : Native ⟨"TEXT", none⟩
  | timestamptz : Native ⟨"TIMESTAMPTZ", none⟩
  | bytea : Native ⟨"BYTEA", none⟩
  | numeric {p : Option String} (h : number p = ⟨"NUMERIC", p⟩) : Native ⟨"NUMERIC", p⟩
  | smallint : Native ⟨"SMALLINT", none⟩
  | integer : Native ⟨"INTEGER", none⟩
  | bigint : Native ⟨"BIGINT", none⟩

/-- The types that Oracle gives to others. -/
inductive Oracle.Native : DataType → Prop
  | number (p : Option String) : Native ⟨"NUMBER", p⟩
  | varchar2 (p : Option String) : Native ⟨"VARCHAR2", p⟩
  | blob : Native ⟨"BLOB", none⟩
  | clob : Native ⟨"CLOB", none⟩
  | date : Native ⟨"DATE", none⟩

theorem Postgres.native_number (p : Option String) : Native (number p) := by
  rcases number_cases p with h | h | h | h
  · exact h ▸ .numeric h
  · exact h ▸ .smallint
  · exact h ▸ .integer
  · exact h ▸ .bigint

/-- Postgres keeps a type, or gives it a native one. -/
theorem Postgres.nativeType_cases (d : DataType) : nativeType d = d ∨ Native (nativeType d) := by
  unfold nativeType
  split
  · split
    · exact .inr (.varchar _)
    · exact .inr .text
  · exact .inr .timestamptz
  · exact .inr .bytea
  · exact .inr .text
  · exact .inr (native_number _)
  · exact .inl rfl

/-- Oracle keeps a type, or gives it a native one. -/
theorem Oracle.nativeType_cases (d : DataType) : nativeType d = d ∨ Native (nativeType d) := by
  unfold nativeType
  split
  · exact .inr (.number _)
  · exact .inr (.number _)
  · exact .inr (.number _)
  · exact .inr (.number _)
  · exact .inr (.varchar2 _)
  · exact .inr .blob
  · exact .inr .clob
  · exact .inr .date
  · exact .inl rfl

/-! ## Journeys -/

section Journeys

variable {d : DataType}

theorem Postgres.upper_names : Text.upper "VARCHAR" = "VARCHAR" ∧ Text.upper "TEXT" = "TEXT" ∧
    Text.upper "TIMESTAMPTZ" = "TIMESTAMPTZ" ∧ Text.upper "BYTEA" = "BYTEA" ∧
    Text.upper "NUMERIC" = "NUMERIC" ∧ Text.upper "SMALLINT" = "SMALLINT" ∧
    Text.upper "INTEGER" = "INTEGER" ∧ Text.upper "BIGINT" = "BIGINT" := by
  decide

theorem Oracle.upper_names : Text.upper "NUMBER" = "NUMBER" ∧ Text.upper "VARCHAR2" = "VARCHAR2" ∧
    Text.upper "BLOB" = "BLOB" ∧ Text.upper "CLOB" = "CLOB" ∧ Text.upper "DATE" = "DATE" := by
  decide

theorem Postgres.nativeType_number {name : String} (h : Text.upper name = "NUMBER")
    (p : Option String) : nativeType ⟨name, p⟩ = number p := by
  simp [nativeType, h]

/-- Postgres keeps its own types. -/
theorem Postgres.Native.kept (h : Native d) : nativeType d = d := by
  cases h <;> simp [nativeType, upper_names]

/-- Oracle keeps its own types. -/
theorem Oracle.Native.kept (h : Native d) : nativeType d = d := by
  cases h <;> simp [nativeType, upper_names]

/-- Postgres keeps none of the types of Oracle. -/
theorem Oracle.Native.translated (h : Native d) : Postgres.Native (Postgres.nativeType d) := by
  cases h with
  | number p =>
    rw [Postgres.nativeType_number upper_names.1]
    exact Postgres.native_number p
  | varchar2 p =>
    cases p with
    | none => simp [Postgres.nativeType, upper_names, Postgres.Native.text]
    | some p => simp [Postgres.nativeType, upper_names, Postgres.Native.varchar]
  | blob => simp [Postgres.nativeType, upper_names, Postgres.Native.bytea]
  | clob => simp [Postgres.nativeType, upper_names, Postgres.Native.text]
  | date => simp [Postgres.nativeType, upper_names, Postgres.Native.timestamptz]

/-- **The native types of Postgres survive the way through Oracle.** -/
theorem Postgres.Native.returns (h : Native d) : nativeType (Oracle.nativeType d) = d := by
  have hsmallint : number (some "5") = ⟨"SMALLINT", none⟩ := by decide
  have hinteger : number (some "10") = ⟨"INTEGER", none⟩ := by decide
  have hbigint : number (some "19") = ⟨"BIGINT", none⟩ := by decide
  cases h <;> simp [Oracle.nativeType, nativeType, upper_names, Oracle.upper_names, *]

/-- A number of digits comes back from Postgres with a precision that is no smaller. -/
theorem Oracle.nativeType_number_of_digits {digits : String} (hne : digits ≠ "")
    (hall : ∀ c ∈ digits.toList, c.isDigit) :
    ∃ p : String, nativeType (Postgres.number (some digits)) = ⟨"NUMBER", some p⟩ ∧
      (p ≠ "" ∧ ∀ c ∈ p.toList, c.isDigit) ∧
      Text.decimalValue digits.toList ≤ Text.decimalValue p.toList := by
  rw [Postgres.number_of_digits hne hall]
  split_ifs with hsmallint hinteger hbigint
  · refine ⟨"5", by simp [nativeType, Postgres.upper_names],
      ⟨by decide, List.all_eq_true.mp (by decide)⟩, ?_⟩
    have hvalue : Text.decimalValue "5".toList = 5 := by decide
    omega
  · refine ⟨"10", by simp [nativeType, Postgres.upper_names],
      ⟨by decide, List.all_eq_true.mp (by decide)⟩, ?_⟩
    have hvalue : Text.decimalValue "10".toList = 10 := by decide
    omega
  · refine ⟨"19", by simp [nativeType, Postgres.upper_names],
      ⟨by decide, List.all_eq_true.mp (by decide)⟩, ?_⟩
    have hvalue : Text.decimalValue "19".toList = 19 := by decide
    omega
  · exact ⟨digits, by simp [nativeType, Postgres.upper_names], ⟨hne, hall⟩, Nat.le_refl _⟩

end Journeys

/-- **Types settle.** Each dialect keeps the types that it has given. A type of one dialect may
change on its first journey to the other and back, and not on the second. Postgres gives a number of
digits the integer type that holds as many of them, or else a numeric with the digits as they are
written, also where they stand for a number that does not fit into 32 bits, so that it cannot be
read. The precision that comes back to Oracle is no smaller. -/
theorem nativeType_settles :
    (∀ d, Oracle.nativeType (Oracle.nativeType d) = Oracle.nativeType d) ∧
    (∀ d, Postgres.nativeType (Postgres.nativeType d) = Postgres.nativeType d) ∧
    (∀ d, Oracle.nativeType d = d →
      Oracle.nativeType (Postgres.nativeType (Oracle.nativeType (Postgres.nativeType d))) =
        Oracle.nativeType (Postgres.nativeType d)) ∧
    (∀ d, Postgres.nativeType d = d →
      Postgres.nativeType (Oracle.nativeType (Postgres.nativeType (Oracle.nativeType d))) =
        Postgres.nativeType (Oracle.nativeType d)) ∧
    ∀ name digits : String, Text.upper name = "NUMBER" → digits ≠ "" →
      (∀ c ∈ digits.toList, c.isDigit) →
      let v := Text.decimalValue digits.toList
      (Postgres.decimal? digits.toList = none ↔ UInt32.size ≤ v) ∧
      Postgres.nativeType ⟨name, some digits⟩ =
        (if 1 ≤ v ∧ v ≤ 5 then ⟨"SMALLINT", none⟩
        else if 6 ≤ v ∧ v ≤ 10 then ⟨"INTEGER", none⟩
        else if 11 ≤ v ∧ v ≤ 19 then ⟨"BIGINT", none⟩
        else ⟨"NUMERIC", some digits⟩) ∧
      ∃ p : String,
        Oracle.nativeType (Postgres.nativeType ⟨name, some digits⟩) = ⟨"NUMBER", some p⟩ ∧
        (p ≠ "" ∧ ∀ c ∈ p.toList, c.isDigit) ∧ v ≤ Text.decimalValue p.toList := by
  refine ⟨fun d => ?_, fun d => ?_, fun d hd => ?_, fun d hd => ?_, ?_⟩
  · rcases Oracle.nativeType_cases d with heq | hnative
    · rw [heq, heq]
    · exact hnative.kept
  · rcases Postgres.nativeType_cases d with heq | hnative
    · rw [heq, heq]
    · exact hnative.kept
  · rcases Postgres.nativeType_cases d with heq | hnative
    · rw [heq, hd, heq, hd]
    · rw [hnative.returns]
  · rcases Oracle.nativeType_cases d with heq | hnative
    · rw [heq, hd, heq, hd]
    · rw [hnative.translated.returns]
  · intro name digits hname hne hall
    rw [Postgres.nativeType_number hname]
    refine ⟨?_, Postgres.number_of_digits hne hall, Oracle.nativeType_number_of_digits hne hall⟩
    rw [Postgres.decimal?_of_digits (by simpa using hne) hall]
    simp

/-- A number of three digits becomes one of five, and stays so. Zeros in front do not count. A
precision of 2 ^ 32 + 5 is not taken for 5. -/
theorem nativeType_settles_number :
    let number : DataType := ⟨"NUMBER", some "3"⟩
    Oracle.nativeType number = number ∧
      Oracle.nativeType (Postgres.nativeType (Oracle.nativeType (Postgres.nativeType number))) =
        Oracle.nativeType (Postgres.nativeType number) ∧
      Oracle.nativeType (Postgres.nativeType number) = ⟨"NUMBER", some "5"⟩ ∧
      Postgres.nativeType ⟨"Number", some "0007"⟩ = ⟨"INTEGER", none⟩ ∧
      Postgres.decimal? "4294967301".toList = none ∧
      Postgres.nativeType ⟨"NUMBER", some "4294967301"⟩ = ⟨"NUMERIC", some "4294967301"⟩ ∧
      Postgres.nativeType ⟨"INTEGER", none⟩ = ⟨"INTEGER", none⟩ ∧
      Postgres.nativeType (Oracle.nativeType
          (Postgres.nativeType (Oracle.nativeType ⟨"INTEGER", none⟩))) =
        Postgres.nativeType (Oracle.nativeType ⟨"INTEGER", none⟩) := by
  intro number
  obtain ⟨-, -, horacle, hpostgres, hdigits⟩ := nativeType_settles
  have hnumber : Oracle.nativeType number = number := by decide
  have hinteger : Postgres.nativeType ⟨"INTEGER", none⟩ = ⟨"INTEGER", none⟩ := by decide
  obtain ⟨-, hseven, -⟩ :=
    hdigits "Number" "0007" (by decide) (by decide) (List.all_eq_true.mp (by decide))
  obtain ⟨hunread, hlarge, -⟩ :=
    hdigits "NUMBER" "4294967301" (by decide) (by decide) (List.all_eq_true.mp (by decide))
  exact ⟨hnumber, horacle number hnumber, by decide, hseven, hunread.mpr (by decide), hlarge, hinteger,
    hpostgres _ hinteger⟩

end SchemaScript
