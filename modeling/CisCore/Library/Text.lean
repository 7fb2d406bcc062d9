import Mathlib.Data.Nat.Digits.Defs
import Mathlib.Data.List.TakeWhile
import Mathlib.Tactic.NormNum

/-! # Byte strings, decimal numbers in text and `stoul`

Strings are lists of characters, one character a byte. Numbers are printed in
decimal, optionally padded with zeros to a fixed width, and read back either as
a string of digits or with the permissive grammar of `strtoul`.
-/

abbrev Str := List Char

instance : Coe String Str := ⟨String.toList⟩

namespace Text

/-- The text before the first newline. -/
def firstLine (s : Str) : Str := s.takeWhile (· != '\n')

theorem firstLine_append_newline {s : Str} (h : '\n' ∉ s) (t : Str) :
    firstLine (s ++ '\n' :: t) = s := by
  rw [firstLine]
  rw [List.takeWhile_append_of_pos]
  · simp
  · intro c hc
    have hne : c ≠ '\n' := fun heq => h (heq ▸ hc)
    simpa using hne

theorem firstLine_of_newline_not_mem {s : Str} (h : '\n' ∉ s) : firstLine s = s := by
  rw [firstLine, List.takeWhile_eq_self_iff]
  intro c hc
  have hne : c ≠ '\n' := fun heq => h (heq ▸ hc)
  simpa using hne

theorem firstLine_concat (s : Str) : firstLine (s ++ ['\n']) = firstLine s := by
  induction s with
  | nil => rfl
  | cons c s ih =>
    rw [firstLine, List.cons_append, List.takeWhile_cons, ← firstLine, ih, firstLine, firstLine,
      List.takeWhile_cons]

/-! ### Decimal digits -/

def decimal (n : Nat) : Str := Nat.toDigits 10 n

def digitsValue (s : Str) : Nat := Nat.ofDigitChars 10 s 0

@[simp] theorem digitsValue_decimal (n : Nat) : digitsValue (decimal n) = n :=
  Nat.ofDigitChars_ten_toDigits

theorem isDigit_of_mem_decimal {n : Nat} {c : Char} (h : c ∈ decimal n) : c.isDigit = true :=
  Nat.isDigit_of_mem_toDigits (by decide) (by decide) h

theorem decimal_ne_nil (n : Nat) : decimal n ≠ [] := Nat.toDigits_ne_nil

theorem length_decimal_le {n w : Nat} (hw : 0 < w) : (decimal n).length ≤ w ↔ n < 10 ^ w :=
  Nat.length_toDigits_le_iff (by decide) hw

/-- `setfill('0') << setw(w) << n`. -/
def zeroPadded (w n : Nat) : Str :=
  List.replicate (w - (decimal n).length) '0' ++ decimal n

@[simp] theorem digitsValue_zeroPadded (w n : Nat) : digitsValue (zeroPadded w n) = n := by
  unfold digitsValue zeroPadded
  rw [Nat.ofDigitChars_append, Nat.ofDigitChars_replicate_zero, Nat.mul_zero]
  exact digitsValue_decimal n

theorem zeroPadded_injective (w : Nat) : Function.Injective (zeroPadded w) := by
  intro m n h
  rw [← digitsValue_zeroPadded w m, h, digitsValue_zeroPadded]

theorem isDigit_of_mem_zeroPadded {w n : Nat} {c : Char} (h : c ∈ zeroPadded w n) :
    c.isDigit = true := by
  obtain h | h := List.mem_append.mp h
  · rw [List.eq_of_mem_replicate h]
    decide
  · exact isDigit_of_mem_decimal h

theorem length_zeroPadded {w n : Nat} (hw : 0 < w) (h : n < 10 ^ w) :
    (zeroPadded w n).length = w := by
  have hle := (length_decimal_le hw).mpr h
  simp only [zeroPadded, List.length_append, List.length_replicate]
  omega

theorem lt_of_length_zeroPadded {w n : Nat} (hw : 0 < w) (h : (zeroPadded w n).length = w) :
    n < 10 ^ w := by
  apply (length_decimal_le hw).mp
  rw [← h]
  simp [zeroPadded]

theorem digit_toNat {c : Char} (h : c.isDigit = true) : 48 ≤ c.toNat ∧ c.toNat ≤ 57 := by
  simp only [Char.isDigit, Bool.and_eq_true, decide_eq_true_eq] at h
  exact h

theorem digitsValue_cons (c : Char) (s : Str) :
    digitsValue (c :: s) = 10 ^ s.length * (c.toNat - 48) + digitsValue s := by
  unfold digitsValue
  rw [Nat.ofDigitChars_cons, Nat.ofDigitChars_eq_ofDigitChars_zero]
  simp

theorem digitsValue_lt {s : Str} (h : ∀ c ∈ s, c.isDigit = true) :
    digitsValue s < 10 ^ s.length := by
  induction s with
  | nil => decide
  | cons c s ih =>
    have hs := ih (fun d hd => h d (List.mem_cons_of_mem _ hd))
    have hc := digit_toNat (h c List.mem_cons_self)
    have hle : c.toNat - 48 ≤ 9 := by omega
    have hmul : 10 ^ s.length * (c.toNat - 48) ≤ 10 ^ s.length * 9 := Nat.mul_le_mul_left _ hle
    rw [digitsValue_cons, List.length_cons, Nat.pow_succ]
    omega

theorem eq_of_digitsValue_eq {s t : Str} (hlen : s.length = t.length)
    (hs : ∀ c ∈ s, c.isDigit = true) (ht : ∀ c ∈ t, c.isDigit = true)
    (h : digitsValue s = digitsValue t) : s = t := by
  induction s generalizing t with
  | nil => exact (List.length_eq_zero_iff.mp hlen.symm).symm
  | cons c s ih =>
    cases t with
    | nil => cases hlen
    | cons d t =>
      have hlen' : s.length = t.length := by simpa using hlen
      have hs' : ∀ c ∈ s, c.isDigit = true := fun e he => hs e (List.mem_cons_of_mem _ he)
      have ht' : ∀ c ∈ t, c.isDigit = true := fun e he => ht e (List.mem_cons_of_mem _ he)
      rw [digitsValue_cons, digitsValue_cons, hlen'] at h
      have hsLt := digitsValue_lt hs'
      have htLt := digitsValue_lt ht'
      rw [hlen'] at hsLt
      -- the leading digits are the quotients by the power, the rests the remainders
      have hq : c.toNat - 48 = d.toNat - 48 := by
        have hdiv := congrArg (· / 10 ^ t.length) h
        simpa [Nat.mul_add_div (Nat.pow_pos (by decide : 0 < 10)), Nat.div_eq_of_lt hsLt,
          Nat.div_eq_of_lt htLt] using hdiv
      have hc := digit_toNat (hs c List.mem_cons_self)
      have hd := digit_toNat (ht d List.mem_cons_self)
      have hcd : c = d := Char.toNat_inj.mp (by omega)
      rw [hq] at h
      rw [hcd, ih hlen' hs' ht' (by omega)]

theorem zeroPadded_digitsValue {w : Nat} (hw : 0 < w) {s : Str} (hlen : s.length = w)
    (hs : ∀ c ∈ s, c.isDigit = true) : zeroPadded w (digitsValue s) = s := by
  have hlt : digitsValue s < 10 ^ w := hlen ▸ digitsValue_lt hs
  apply eq_of_digitsValue_eq
  · rw [length_zeroPadded hw hlt, hlen]
  · exact fun c hc => isDigit_of_mem_zeroPadded hc
  · exact hs
  · exact digitsValue_zeroPadded w _

/-! ### Reading numbers as `strtoul` does -/

def isSpace (c : Char) : Bool :=
  c == ' ' || c == '\t' || c == '\n' || c == '\x0b' || c == '\x0c' || c == '\r'

/-- The leading digits of a string as a number, if there is one and it fits an
unsigned long. -/
def unsignedPrefix (s : Str) : Option Nat :=
  let digits := s.takeWhile Char.isDigit
  if digits = [] then none
  else if digitsValue digits < 2 ^ 64 then some (digitsValue digits)
  else none

/-- `std::stoul`: leading white space, an optional sign, digits; what follows
is ignored, a minus sign wraps around and `none` stands for an exception. -/
def stoul (s : Str) : Option Nat :=
  match s.dropWhile isSpace with
  | '-' :: t => (unsignedPrefix t).map fun n => (2 ^ 64 - n) % 2 ^ 64
  | '+' :: t => unsignedPrefix t
  | t => unsignedPrefix t

/-- The digits that `stoul` takes for the number. -/
def numberDigits (s : Str) : Str :=
  match s.dropWhile isSpace with
  | '-' :: t => t.takeWhile Char.isDigit
  | '+' :: t => t.takeWhile Char.isDigit
  | t => t.takeWhile Char.isDigit

theorem unsignedPrefix_eq_none_iff {s : Str} :
    unsignedPrefix s = none ↔ s.takeWhile Char.isDigit = [] ∨
      2 ^ 64 ≤ digitsValue (s.takeWhile Char.isDigit) := by
  rw [unsignedPrefix]
  split_ifs with hEmpty hFits
  · simp [hEmpty]
  · simp only [hEmpty, false_or, false_iff]
    exact not_le.mpr hFits
  · simp only [hEmpty, false_or, true_iff]
    exact not_lt.mp hFits

theorem stoul_eq_none_iff {s : Str} :
    stoul s = none ↔ numberDigits s = [] ∨ 2 ^ 64 ≤ digitsValue (numberDigits s) := by
  rw [stoul, numberDigits]
  split
  · rw [Option.map_eq_none_iff, unsignedPrefix_eq_none_iff]
  · exact unsignedPrefix_eq_none_iff
  · exact unsignedPrefix_eq_none_iff

theorem isSpace_of_isDigit {c : Char} (h : c.isDigit = true) : isSpace c = false := by
  have hc := digit_toNat h
  have hne : ∀ d : Char, d.toNat < 48 → c ≠ d := by
    rintro d hd rfl
    omega
  simp [isSpace, hne]

theorem dropWhile_isSpace_of_digits {c : Char} {s : Str} (h : c.isDigit = true) :
    (c :: s).dropWhile isSpace = c :: s := by
  rw [List.dropWhile_cons, isSpace_of_isDigit h]
  rfl

theorem unsignedPrefix_digits {s : Str} (hs : ∀ c ∈ s, c.isDigit = true) (hne : s ≠ [])
    (hlt : digitsValue s < 2 ^ 64) : unsignedPrefix s = some (digitsValue s) := by
  rw [unsignedPrefix]
  have htake : s.takeWhile Char.isDigit = s := List.takeWhile_eq_self_iff.mpr hs
  rw [htake, if_neg hne, if_pos hlt]

theorem stoul_digits {s : Str} (hs : ∀ c ∈ s, c.isDigit = true) (hne : s ≠ [])
    (hlt : digitsValue s < 2 ^ 64) : stoul s = some (digitsValue s) := by
  have hPrefix := unsignedPrefix_digits hs hne hlt
  obtain ⟨c, t, rfl⟩ := List.exists_cons_of_ne_nil hne
  have hc := digit_toNat (hs c List.mem_cons_self)
  rw [stoul]
  rw [dropWhile_isSpace_of_digits (hs c List.mem_cons_self)]
  split
  · rename_i heq
    cases heq
    exact absurd hc.1 (by decide)
  · rename_i heq
    cases heq
    exact absurd hc.1 (by decide)
  · exact hPrefix

/-- A signed number as `operator<<` prints it. -/
def intText (e : Int) : Str :=
  if e < 0 then '-' :: decimal e.natAbs else decimal e.natAbs

theorem newline_not_mem_intText (e : Int) : '\n' ∉ intText e := by
  have hDigits : ∀ n, '\n' ∉ decimal n := fun n h => by
    have hc := isDigit_of_mem_decimal h
    revert hc
    decide
  rw [intText]
  split <;> simp [hDigits]

theorem stoul_intText {e : Int} (h : e.natAbs < 2 ^ 64) :
    stoul (intText e) =
      some (if e < 0 then (2 ^ 64 - e.natAbs) % 2 ^ 64 else e.natAbs) := by
  have hPrefix : unsignedPrefix (decimal e.natAbs) = some e.natAbs := by
    rw [unsignedPrefix_digits (fun c hc => isDigit_of_mem_decimal hc) (decimal_ne_nil _)
      (by rwa [digitsValue_decimal]), digitsValue_decimal]
  rw [intText]
  split_ifs with hneg
  · have hdrop : ('-' :: decimal e.natAbs).dropWhile isSpace = '-' :: decimal e.natAbs := rfl
    rw [stoul, hdrop]
    simp only [hPrefix, Option.map_some]
  · rw [stoul_digits (fun c hc => isDigit_of_mem_decimal hc) (decimal_ne_nil _)
      (by rwa [digitsValue_decimal]), digitsValue_decimal]

/-! ### Reading up to a delimiter -/

/-- `std::getline`: the text before the delimiter and what follows it; nothing
follows when the text ends first. -/
def getline (delim : Char) : Str → Str × Option Str
  | [] => ([], none)
  | c :: s => if c = delim then ([], some s) else (c :: (getline delim s).1, (getline delim s).2)

theorem getline_append {delim : Char} {s : Str} (h : delim ∉ s) (t : Str) :
    getline delim (s ++ delim :: t) = (s, some t) := by
  induction s with
  | nil => simp [getline]
  | cons c s ih =>
    rw [List.mem_cons, not_or] at h
    rw [List.cons_append, getline, if_neg (Ne.symm h.1), ih h.2]

theorem delim_not_mem_getline (delim : Char) (s : Str) : delim ∉ (getline delim s).1 := by
  induction s with
  | nil => exact List.not_mem_nil
  | cons c s ih =>
    rw [getline]
    split_ifs with h
    · exact List.not_mem_nil
    · rw [List.mem_cons, not_or]
      exact ⟨Ne.symm h, ih⟩

theorem length_getline {delim : Char} {s l t : Str} (h : getline delim s = (l, some t)) :
    t.length < s.length := by
  induction s generalizing l with
  | nil => cases h
  | cons c s ih =>
    rw [getline] at h
    split_ifs at h with hc
    · cases h
      exact Nat.lt_succ_self _
    · obtain ⟨_, hRest⟩ := Prod.mk.inj h
      exact (ih (Prod.ext rfl hRest)).trans (Nat.lt_succ_self _)

/-- Induction over the lines of a text, of which the last one ends without a newline. -/
theorem line_induction {motive : Str → Prop} (last : ∀ l, '\n' ∉ l → motive l)
    (line : ∀ l t, '\n' ∉ l → motive t → motive (l ++ '\n' :: t)) (text : Str) : motive text := by
  by_cases h : '\n' ∈ text
  · obtain ⟨l, t, hText, hl⟩ := List.eq_append_cons_of_mem h
    have hShorter : t.length < text.length := by
      rw [hText, List.length_append, List.length_cons]
      omega
    rw [hText]
    exact line l t hl (line_induction last line t)
  · exact last text h
termination_by text.length

end Text
