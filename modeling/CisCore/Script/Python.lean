import CisCore.Library.Utf8
import Mathlib.Data.List.Basic

/-! # Strings, arguments and pipes in Python

A Python string is a list of code points, surrogates included. The arguments of
a process are encoded as file names are, where a surrogate that stands for a
byte becomes that byte; the output of a process is decoded strictly.
-/

abbrev PyStr := List (Fin 0x110000)

namespace Python

theorem toNat_lt_codePoints (c : Char) : c.toNat < 0x110000 := by
  obtain h | h := c.valid
  · exact Nat.lt_trans h (by decide)
  · exact h.2

def char (c : Char) : Fin 0x110000 := ⟨c.toNat, toNat_lt_codePoints c⟩

def ofText (s : List Char) : PyStr := s.map char

def fsencodeChar (c : Fin 0x110000) : Option Str :=
  if c.val.isValidChar then some (Utf8.encodeChar (Char.ofNat c.val))
  else if 0xDC80 ≤ c.val ∧ c.val ≤ 0xDCFF then some [Char.ofNat (c.val - 0xDC00)]
  else none

/-- `os.fsencode`; `none` where it raises. -/
def fsencode (s : PyStr) : Option Str := (s.mapM fsencodeChar).map List.flatten

/-- The arguments of `subprocess.Popen`, which raises on a null character. -/
def popenArgs (args : List PyStr) : Option (List Str) := do
  let args ← args.mapM fsencode
  if args.all (fun arg => !arg.contains '\x00') then some args else none

/-- `decode("utf-8").partition('\n')[0]` -/
def decodeFirstLine (stdout : Str) : Option PyStr :=
  (Utf8.decode stdout).map fun text => ofText (Text.firstLine text)

theorem char_injective : Function.Injective char := fun _ _ h =>
  Char.toNat_inj.mp (Fin.mk.inj h)

theorem mem_ofText {c : Char} {s : List Char} : char c ∈ ofText s ↔ c ∈ s :=
  List.mem_map_of_injective char_injective

theorem exists_ofText {s : PyStr} (h : ∀ c ∈ s, c.val.isValidChar) : ∃ text, s = ofText text := by
  induction s with
  | nil => exact ⟨[], rfl⟩
  | cons c s ih =>
    obtain ⟨text, hText⟩ := ih fun d hd => h d (List.mem_cons_of_mem _ hd)
    have hc := h c List.mem_cons_self
    refine ⟨Char.ofNatAux c.val hc :: text, ?_⟩
    rw [hText]
    rfl

theorem isValidChar_of_mem_ofText {text : List Char} : ∀ c ∈ ofText text, c.val.isValidChar := by
  intro c hc
  obtain ⟨d, _, rfl⟩ := List.mem_map.mp hc
  exact d.valid

theorem fsencode_ofText (text : List Char) : fsencode (ofText text) = some (Utf8.encode text) := by
  have hChar : ∀ c : Char, fsencodeChar (char c) = some (Utf8.encodeChar c) := by
    intro c
    have hValid : (char c).val.isValidChar := c.valid
    rw [fsencodeChar, if_pos hValid, char, Char.ofNat_toNat]
  have hMap : (ofText text).mapM fsencodeChar = some (text.map Utf8.encodeChar) := by
    induction text with
    | nil => rfl
    | cons c text ih =>
      rw [ofText, List.map_cons, List.mapM_cons, hChar, ← ofText, ih]
      rfl
  rw [fsencode, hMap, Utf8.encode, List.flatMap_def]
  rfl

theorem fsencodeChar_ne_nil {c : Fin 0x110000} : fsencodeChar c ≠ some [] := by
  rw [fsencodeChar]
  split_ifs
  · intro h
    exact String.utf8EncodeChar_ne_nil (List.map_eq_nil_iff.mp (Option.some.inj h))
  · simp
  · simp

theorem fsencode_ne_nil {s : PyStr} (h : s ≠ []) : fsencode s ≠ some [] := by
  intro hNil
  obtain ⟨c, s', rfl⟩ := List.exists_cons_of_ne_nil h
  obtain ⟨parts, hParts, hFlat⟩ := Option.map_eq_some_iff.mp hNil
  rw [List.mapM_cons] at hParts
  obtain ⟨first, hFirst, hRest⟩ := Option.bind_eq_some_iff.mp hParts
  obtain ⟨rest, _, hCons⟩ := Option.bind_eq_some_iff.mp hRest
  obtain rfl := Option.some.inj hCons
  rw [List.flatten_cons, List.append_eq_nil_iff] at hFlat
  exact fsencodeChar_ne_nil (hFlat.1 ▸ hFirst)

theorem popenArgs_eq_some {args : List PyStr} {bytes : List Str} :
    popenArgs args = some bytes ↔
      args.mapM fsencode = some bytes ∧ ∀ arg ∈ bytes, '\x00' ∉ arg := by
  have hAll : ∀ bytes : List Str, bytes.all (fun arg => !arg.contains '\x00') = true ↔
      ∀ arg ∈ bytes, '\x00' ∉ arg := by
    intro bytes
    simp
  rw [popenArgs, Option.bind_eq_bind, Option.bind_eq_some_iff]
  constructor
  · rintro ⟨args', hArgs, h⟩
    split at h
    · rename_i hNone
      cases h
      exact ⟨hArgs, (hAll bytes).mp hNone⟩
    · cases h
  · rintro ⟨hArgs, hNone⟩
    exact ⟨bytes, hArgs, if_pos ((hAll bytes).mpr hNone)⟩

theorem popenArgs_one {s : PyStr} {args : List Str} :
    popenArgs [s] = some args ↔ ∃ arg, fsencode s = some arg ∧ '\x00' ∉ arg ∧ args = [arg] := by
  rw [popenArgs_eq_some]
  cases h : fsencode s with
  | none => simp [h]
  | some arg =>
    constructor
    · rintro ⟨hArgs, hNone⟩
      simp only [List.mapM_cons, List.mapM_nil, h] at hArgs
      cases hArgs
      exact ⟨arg, rfl, hNone arg List.mem_cons_self, rfl⟩
    · rintro ⟨_, hArg, hNone, rfl⟩
      cases hArg
      refine ⟨by simp [h], fun b hb => ?_⟩
      rwa [List.mem_singleton.mp hb]

theorem popenArgs_two {s t : PyStr} {arg arg' : Str} (h : fsencode s = some arg)
    (h' : fsencode t = some arg') (hNone : '\x00' ∉ arg) (hNone' : '\x00' ∉ arg') :
    popenArgs [s, t] = some [arg, arg'] := by
  rw [popenArgs_eq_some]
  refine ⟨by simp [h, h'], fun b hb => ?_⟩
  obtain rfl | hb := List.mem_cons.mp hb
  · exact hNone
  · rwa [List.mem_singleton.mp hb]

/-! ### Lines of a text stream -/

/-- Universal newlines. -/
def translateNewlines : List Char → List Char
  | [] => []
  | '\r' :: '\n' :: s => '\n' :: translateNewlines s
  | '\r' :: s => '\n' :: translateNewlines s
  | c :: s => c :: translateNewlines s

/-- The lines that `readline` returns one after the other, with their newlines. -/
def readlines : List Char → List (List Char)
  | [] => []
  | c :: s =>
    if c = '\n' then [c] :: readlines s
    else
      match readlines s with
      | [] => [[c]]
      | line :: lines => (c :: line) :: lines

/-- The last line of a stream read to its end, empty when there is none. -/
def lastLine (text : List Char) : List Char := (readlines text).getLast?.getD []

theorem translateNewlines_of_not_mem {s : List Char} (h : '\r' ∉ s) : translateNewlines s = s := by
  induction s using translateNewlines.induct with
  | case1 => rfl
  | case2 s ih => simp at h
  | case3 s hNext ih => simp at h
  | case4 c s hPair hCr ih =>
    have hc : c ≠ '\r' := fun heq => h (heq ▸ List.mem_cons_self)
    rw [translateNewlines, ih fun hMem => h (List.mem_cons_of_mem _ hMem)]
    · exact fun s' heq _ => hc heq
    · exact hc

/-- A newline stays one, whatever stands before it. -/
theorem translateNewlines_append (s t : List Char) :
    ∃ s', translateNewlines (s ++ '\n' :: t) = s' ++ '\n' :: translateNewlines t := by
  induction s using translateNewlines.induct with
  | case1 => exact ⟨[], by simp [translateNewlines]⟩
  | case2 s ih =>
    obtain ⟨s', hs⟩ := ih
    exact ⟨'\n' :: s', by simp [translateNewlines, hs]⟩
  | case3 s hNext ih =>
    obtain ⟨s', hs⟩ := ih
    cases s with
    | nil => exact ⟨[], by simp [translateNewlines]⟩
    | cons d s =>
      have hd : d ≠ '\n' := fun heq => hNext s (heq ▸ rfl)
      refine ⟨'\n' :: s', ?_⟩
      rw [List.cons_append, List.cons_append, translateNewlines, ← List.cons_append, hs]
      · rfl
      · exact fun s'' heq => hd (List.cons.inj heq).1
  | case4 c s hPair hCr ih =>
    obtain ⟨s', hs⟩ := ih
    have hc : c ≠ '\r' := hCr
    refine ⟨c :: s', ?_⟩
    rw [List.cons_append, translateNewlines, hs]
    · rfl
    · exact fun s'' heq _ => hc heq
    · exact hc

theorem readlines_ne_nil {s : List Char} (h : s ≠ []) : readlines s ≠ [] := by
  obtain ⟨c, s, rfl⟩ := List.exists_cons_of_ne_nil h
  rw [readlines]
  split_ifs
  · exact List.cons_ne_nil _ _
  · split
    · exact List.cons_ne_nil _ _
    · exact List.cons_ne_nil _ _

theorem readlines_append (s t : List Char) :
    readlines (s ++ '\n' :: t) = readlines (s ++ ['\n']) ++ readlines t := by
  induction s with
  | nil => simp [readlines]
  | cons c s ih =>
    rw [List.cons_append, List.cons_append, readlines, readlines]
    split_ifs
    · rw [ih, List.cons_append]
    · rw [ih]
      obtain ⟨line, lines, hLines⟩ := List.exists_cons_of_ne_nil
        (readlines_ne_nil (List.append_ne_nil_of_right_ne_nil s (List.cons_ne_nil '\n' [])))
      rw [hLines]
      rfl

theorem readlines_line {line : List Char} (h : '\n' ∉ line) :
    readlines (line ++ ['\n']) = [line ++ ['\n']] := by
  induction line with
  | nil => simp [readlines]
  | cons c line ih =>
    rw [List.mem_cons, not_or] at h
    rw [List.cons_append, readlines, if_neg (Ne.symm h.1), ih h.2]

theorem lastLine_append {line : List Char} (h : '\n' ∉ line) (s : List Char) :
    lastLine (s ++ '\n' :: (line ++ ['\n'])) = line ++ ['\n'] := by
  rw [lastLine, readlines_append, readlines_line h, List.getLast?_concat, Option.getD_some]

end Python
