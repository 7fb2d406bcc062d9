import CisCore.Library.FileTree

/-! # Build numbers and numbers in files

The names of build directories are the six-digit numbers. They sort like the
numbers, and every number below a million has exactly one name.
-/

namespace CisCore

def isBuild (dirName : Str) : Bool := dirName.length = 6 && dirName.all Char.isDigit

/-- A number of 32 bits; `none` where `stoul` throws. -/
def u32FromString (s : Str) : Option Nat := (Text.stoul s).map (· % 2 ^ 32)

/-- `stoul` and `stoi` of a build's directory name, which never throw. -/
def buildNumber (dirName : Str) : Nat := (Text.stoul dirName).getD 0

def numberString (number : Nat) : Str := Text.zeroPadded 6 number

theorem isBuild_iff {dirName : Str} :
    isBuild dirName = true ↔ dirName.length = 6 ∧ ∀ c ∈ dirName, c.isDigit = true := by
  simp [isBuild]

theorem isBuild_numberString {n : Nat} (h : n < 1000000) : isBuild (numberString n) = true :=
  isBuild_iff.mpr ⟨Text.length_zeroPadded (by decide) h,
    fun _ hc => Text.isDigit_of_mem_zeroPadded hc⟩

theorem lt_of_isBuild_numberString {n : Nat} (h : isBuild (numberString n) = true) : n < 1000000 :=
  Text.lt_of_length_zeroPadded (by decide) (isBuild_iff.mp h).1

theorem numberString_injective : Function.Injective numberString := Text.zeroPadded_injective 6

theorem numberString_ne {name : Str} {c : Char} (hMem : c ∈ name) (hDigit : c.isDigit = false)
    (n : Nat) : numberString n ≠ name := by
  rintro rfl
  rw [Text.isDigit_of_mem_zeroPadded hMem] at hDigit
  cases hDigit

theorem colon_not_mem_numberString (n : Nat) : ':' ∉ numberString n := fun hMem =>
  numberString_ne hMem (by decide) n rfl

theorem numberString_ne_nil (n : Nat) : numberString n ≠ [] := by
  simp [numberString, Text.zeroPadded, Text.decimal_ne_nil]

theorem buildNumber_eq_digitsValue {dirName : Str} (h : isBuild dirName = true) :
    buildNumber dirName = Text.digitsValue dirName := by
  obtain ⟨hLength, hDigits⟩ := isBuild_iff.mp h
  have hLt : Text.digitsValue dirName < 10 ^ dirName.length := Text.digitsValue_lt hDigits
  rw [hLength] at hLt
  have hne : dirName ≠ [] := by
    rintro rfl
    cases hLength
  rw [buildNumber, Text.stoul_digits hDigits hne (by omega), Option.getD_some]

theorem numberString_buildNumber {dirName : Str} (h : isBuild dirName = true) :
    numberString (buildNumber dirName) = dirName := by
  obtain ⟨hLength, hDigits⟩ := isBuild_iff.mp h
  rw [buildNumber_eq_digitsValue h, numberString, Text.zeroPadded_digitsValue (by decide) hLength hDigits]

theorem buildNumber_numberString {n : Nat} (h : n < 1000000) : buildNumber (numberString n) = n := by
  rw [buildNumber_eq_digitsValue (isBuild_numberString h), numberString, Text.digitsValue_zeroPadded]

theorem buildNumber_lt {dirName : Str} (h : isBuild dirName = true) :
    buildNumber dirName < 1000000 := by
  apply lt_of_isBuild_numberString
  rwa [numberString_buildNumber h]

theorem isBuild_and_number_iff {dirName : Str} {n : Nat} :
    isBuild dirName = true ∧ buildNumber dirName = n ↔ n < 1000000 ∧ dirName = numberString n := by
  constructor
  · rintro ⟨h, rfl⟩
    exact ⟨buildNumber_lt h, (numberString_buildNumber h).symm⟩
  · rintro ⟨h, rfl⟩
    exact ⟨isBuild_numberString h, buildNumber_numberString h⟩

/-! ### The recorded exit status -/

/-- The line that holds the exit status of a build. -/
def exitcodeText (status : Int32) : Str := Text.intText status.toInt ++ ['\n']

/-- A status that is written is read back as zero exactly if it is zero. -/
theorem u32FromString_exitcodeText (status : Int32) :
    ∃ n, u32FromString (Text.firstLine (exitcodeText status)) = some n ∧ (n = 0 ↔ status = 0) := by
  have hLower := status.le_toInt
  have hUpper := status.toInt_lt
  have hAbs : status.toInt.natAbs < 2 ^ 64 := by omega
  have hZero : status = 0 ↔ status.toInt = 0 := by
    rw [← Int32.toInt_inj]
    rfl
  rw [exitcodeText, Text.firstLine_append_newline (Text.newline_not_mem_intText status.toInt),
    u32FromString, Text.stoul_intText hAbs, Option.map_some, hZero]
  refine ⟨_, rfl, ?_⟩
  split_ifs with hNegative
  · omega
  · omega

end CisCore
