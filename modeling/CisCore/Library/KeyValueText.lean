import CisCore.Library.Text
import Mathlib.Data.List.DropRight

/-! # Escaped `key=value` text

One pair a line, split at its first unescaped `=`. A backslash starts a
two-character escape; backslash, `=` and newline are always written escaped.
-/

namespace KeyValueText

/-- No newline, no bare `=` and no backslash without its second character. -/
def isEscaped : Str → Bool
  | [] => true
  | ['\\'] => false
  | '\\' :: c :: s => c != '\n' && isEscaped s
  | c :: s => c != '=' && c != '\n' && isEscaped s

def escapeChar (c : Char) : Str :=
  if c = '\\' then ['\\', '\\']
  else if c = '=' then ['\\', '=']
  else if c = '\n' then ['\\', 'n']
  else [c]

def escape (s : Str) : Str := s.flatMap escapeChar

/-- `none` on a backslash that starts no known escape. -/
def unescape : Str → Option Str
  | [] => some []
  | '\\' :: '\\' :: s => (unescape s).map ('\\' :: ·)
  | '\\' :: '=' :: s => (unescape s).map ('=' :: ·)
  | '\\' :: 'n' :: s => (unescape s).map ('\n' :: ·)
  | '\\' :: _ => none
  | c :: s => (unescape s).map (c :: ·)

/-- The halves around the first unescaped `=`. -/
def splitUnescaped : Str → Option (Str × Str)
  | [] => none
  | '\\' :: c :: s => (splitUnescaped s).map fun p => ('\\' :: c :: p.1, p.2)
  | '=' :: s => some ([], s)
  | c :: s => (splitUnescaped s).map fun p => (c :: p.1, p.2)

theorem isEscaped_cons {c : Char} {s : Str} (h : c ≠ '\\') :
    isEscaped (c :: s) = (c != '=' && c != '\n' && isEscaped s) := by
  rw [isEscaped] <;> simp_all

theorem splitUnescaped_cons {c : Char} {s : Str} (hSlash : c ≠ '\\') (hEq : c ≠ '=') :
    splitUnescaped (c :: s) = (splitUnescaped s).map fun p => (c :: p.1, p.2) := by
  rw [splitUnescaped] <;> simp_all

theorem unescape_cons {c : Char} {s : Str} (h : c ≠ '\\') :
    unescape (c :: s) = (unescape s).map (c :: ·) := by
  rw [unescape] <;> simp_all

theorem newline_not_mem_of_isEscaped {s : Str} (h : isEscaped s = true) : '\n' ∉ s := by
  induction s using isEscaped.induct with
  | case1 => simp
  | case2 => cases h
  | case3 c s ih =>
    simp only [isEscaped, Bool.and_eq_true, bne_iff_ne] at h
    simp [Ne.symm h.1, ih h.2]
  | case4 c s hNil hSlash ih =>
    have hc : c ≠ '\\' := by
      rintro rfl
      cases s with
      | nil => exact hNil rfl rfl
      | cons d s => exact hSlash d s rfl rfl
    rw [isEscaped_cons hc] at h
    simp only [Bool.and_eq_true, bne_iff_ne] at h
    simp [Ne.symm h.1.2, ih h.2]

/-- The first unescaped `=` of a line is the one after its escaped key. -/
theorem splitUnescaped_append {k : Str} (h : isEscaped k = true) (v : Str) :
    splitUnescaped (k ++ '=' :: v) = some (k, v) := by
  induction k using isEscaped.induct with
  | case1 => rfl
  | case2 => cases h
  | case3 c s ih =>
    simp only [isEscaped, Bool.and_eq_true] at h
    simp [splitUnescaped, ih h.2]
  | case4 c s hNil hSlash ih =>
    have hc : c ≠ '\\' := by
      rintro rfl
      cases s with
      | nil => exact hNil rfl rfl
      | cons d s => exact hSlash d s rfl rfl
    rw [isEscaped_cons hc] at h
    simp only [Bool.and_eq_true, bne_iff_ne] at h
    rw [List.cons_append, splitUnescaped_cons hc h.1.1, ih h.2]
    rfl

theorem eq_append_of_splitUnescaped {l k v : Str} (hl : '\n' ∉ l)
    (h : splitUnescaped l = some (k, v)) : l = k ++ '=' :: v ∧ isEscaped k = true := by
  induction l using splitUnescaped.induct generalizing k with
  | case1 => cases h
  | case2 c s ih =>
    obtain ⟨⟨k', v'⟩, hSplit, hPair⟩ := Option.map_eq_some_iff.mp h
    cases hPair
    simp only [List.mem_cons, not_or] at hl
    obtain ⟨hEq, hEsc⟩ := ih hl.2.2 hSplit
    exact ⟨by rw [hEq]; rfl, by simp [isEscaped, Ne.symm hl.2.1, hEsc]⟩
  | case3 s =>
    cases h
    exact ⟨rfl, rfl⟩
  | case4 c s hSlash hEq ih =>
    by_cases hc : c = '\\'
    · subst hc
      cases s with
      | nil => cases h
      | cons d s => exact absurd rfl (hSlash d s rfl)
    · rw [splitUnescaped_cons hc hEq] at h
      obtain ⟨⟨k', v'⟩, hSplit, hPair⟩ := Option.map_eq_some_iff.mp h
      cases hPair
      simp only [List.mem_cons, not_or] at hl
      obtain ⟨hEq', hEsc⟩ := ih hl.2 hSplit
      refine ⟨by rw [hEq']; rfl, ?_⟩
      rw [isEscaped_cons hc]
      have hEq' : c ≠ '=' := hEq
      simp [hEq', Ne.symm hl.1, hEsc]

theorem escape_cons (c : Char) (s : Str) : escape (c :: s) = escapeChar c ++ escape s := rfl

theorem isEscaped_escape (s : Str) : isEscaped (escape s) = true := by
  induction s with
  | nil => rfl
  | cons c s ih =>
    rw [escape_cons, escapeChar]
    split_ifs with hSlash hEq hNewline
    · simpa [isEscaped] using ih
    · simpa [isEscaped] using ih
    · simpa [isEscaped] using ih
    · rw [List.singleton_append, isEscaped_cons hSlash, ih]
      simp [hEq, hNewline]

theorem unescape_escape (s : Str) : unescape (escape s) = some s := by
  induction s with
  | nil => rfl
  | cons c s ih =>
    rw [escape_cons, escapeChar]
    split_ifs with hSlash hEq hNewline
    · simp [unescape, ih, hSlash]
    · simp [unescape, ih, hEq]
    · simp [unescape, ih, hNewline]
    · rw [List.singleton_append, unescape_cons hSlash, ih]
      rfl

theorem mem_of_mem_escape {s : Str} {c : Char} (hSlash : c ≠ '\\') (hn : c ≠ 'n')
    (h : c ∈ escape s) : c ∈ s := by
  obtain ⟨d, hd, hc⟩ := List.mem_flatMap.mp h
  have hcd : c = d := by
    rw [escapeChar] at hc
    split_ifs at hc <;> simp_all
  rwa [hcd]

theorem unescape_isSome_of_append {s t : Str} (ht : ∀ c ∈ t, c = '\r')
    (h : (unescape (s ++ t)).isSome) : (unescape s).isSome := by
  induction s using unescape.induct with
  | case1 => rfl
  | case2 s ih | case3 s ih | case4 s ih =>
    simp only [List.cons_append, unescape, Option.isSome_map] at h ⊢
    exact ih h
  | case5 rest hSlash hEq hn =>
    -- a carriage return is no escape character, so the escape stays unknown
    cases rest with
    | nil =>
      cases t with
      | nil => simpa using h
      | cons c t =>
        rw [ht c List.mem_cons_self] at h
        cases h
    | cons c rest =>
      simp only [List.cons_append] at h
      rw [unescape] at h
      · cases h
      · rintro s heq
        cases heq
        exact hSlash rest rfl
      · rintro s heq
        cases heq
        exact hEq rest rfl
      · rintro s heq
        cases heq
        exact hn rest rfl
  | case6 c s _ _ _ hSlash ih =>
    have hc : c ≠ '\\' := hSlash
    rw [List.cons_append, unescape_cons hc, Option.isSome_map] at h
    rw [unescape_cons hc, Option.isSome_map]
    exact ih h

/-! ### A reader of such text -/

/-- A line without the carriage returns at its end. -/
def chomp (l : Str) : Str := l.rdropWhile (· == '\r')

/-- What one line contributes: nothing when blank, one pair otherwise. -/
def readLine (decode : Bool) (l : Str) : Option (List (Str × Str)) :=
  if chomp l = [] then some []
  else
    match splitUnescaped (chomp l) with
    | none => none
    | some (k, v) =>
      if k = [] then none
      else if decode then
        match unescape k, unescape v with
        | some k', some v' => some [(k', v')]
        | _, _ => none
      else some [(k, v)]

def readLines (decode : Bool) : List Str → Option (List (Str × Str))
  | [] => some []
  | l :: ls => (readLine decode l).bind fun a => (readLines decode ls).map (a ++ ·)

def read (decode : Bool) (text : Str) : Option (List (Str × Str)) :=
  readLines decode (text.splitOn '\n')

theorem read_of_newline_not_mem {l : Str} (hl : '\n' ∉ l) (decode : Bool) :
    read decode l = readLine decode l := by
  rw [read, List.splitOn_eq_singleton hl]
  cases h : readLine decode l <;> simp [readLines, h]

theorem read_append_newline {l : Str} (hl : '\n' ∉ l) (t : Str) (decode : Bool) :
    read decode (l ++ '\n' :: t) =
      (readLine decode l).bind fun a => (read decode t).map (a ++ ·) := by
  rw [read, List.splitOn_append_cons_self_of_not_mem hl]
  rfl

theorem read_nil (decode : Bool) : read decode [] = some [] := by
  simp [read, readLines, readLine, chomp]

theorem chomp_append (l : Str) : ∃ n, l = chomp l ++ List.replicate n '\r' := by
  refine ⟨(l.rtakeWhile (· == '\r')).length, ?_⟩
  have hCr : l.rtakeWhile (· == '\r') = List.replicate (l.rtakeWhile (· == '\r')).length '\r' := by
    apply List.eq_replicate_of_mem
    intro c hc
    simpa using List.mem_rtakeWhile_imp hc
  rw [← hCr]
  exact List.rdropWhile_append_rtakeWhile.symm

theorem chomp_append_eq (k v : Str) : chomp (k ++ '=' :: v) = k ++ '=' :: chomp v := by
  unfold chomp
  induction v using List.reverseRecOn with
  | nil => exact List.rdropWhile_concat_neg _ _ _ (by decide)
  | append_singleton v c ih =>
    rw [← List.cons_append, ← List.append_assoc, List.rdropWhile_concat, List.rdropWhile_concat, ih]
    split <;> simp

theorem readLine_pair {k : Str} (hEsc : isEscaped k = true) (hk : k ≠ []) (v : Str) :
    readLine false (k ++ '=' :: v) = some [(k, chomp v)] := by
  rw [readLine]
  rw [chomp_append_eq, splitUnescaped_append hEsc]
  simp [hk]

theorem readLine_empty_key (decode : Bool) (v : Str) : readLine decode ('=' :: v) = none := by
  rw [readLine]
  rw [show '=' :: v = [] ++ '=' :: v from rfl, chomp_append_eq, splitUnescaped_append rfl]
  simp

theorem readLine_decoded (l : Str) :
    readLine true l =
      (readLine false l).bind (List.mapM fun p => do
        let k ← unescape p.1
        let v ← unescape p.2
        some (k, v)) := by
  unfold readLine
  by_cases hBlank : chomp l = []
  · simp [hBlank]
  · rw [if_neg hBlank, if_neg hBlank]
    cases splitUnescaped (chomp l) with
    | none => rfl
    | some p =>
      by_cases hk : p.1 = []
      · simp [hk]
      · cases hKey : unescape p.1 <;> cases hValue : unescape p.2 <;> simp [hk, hKey, hValue]

/-- A line that is read without decoding is blank or splits into the two halves of a pair. -/
theorem readLine_cases {l : Str} (hl : '\n' ∉ l) {ps : List (Str × Str)}
    (h : readLine false l = some ps) :
    ps = [] ∨ ∃ k v, ps = [(k, v)] ∧ chomp l = k ++ '=' :: v ∧ isEscaped k = true ∧ k ≠ [] ∧
      '\n' ∉ chomp l := by
  rw [readLine] at h
  by_cases hBlank : chomp l = []
  · rw [if_pos hBlank] at h
    exact Or.inl (Option.some.inj h).symm
  · rw [if_neg hBlank] at h
    obtain ⟨n, hChomp⟩ := chomp_append l
    have hNewline : '\n' ∉ chomp l := fun hc => hl (hChomp ▸ List.mem_append_left _ hc)
    cases hSplit : splitUnescaped (chomp l) with
    | none => simp [hSplit] at h
    | some p =>
      obtain ⟨k, v⟩ := p
      obtain ⟨hEq, hEsc⟩ := eq_append_of_splitUnescaped hNewline hSplit
      by_cases hk : k = []
      · simp [hSplit, hk] at h
      · have hps : ps = [(k, v)] := by simpa [hSplit, hk, eq_comm] using h
        exact Or.inr ⟨k, v, hps, hEq, hEsc, hk, hNewline⟩

theorem readLine_halves {l : Str} (hl : '\n' ∉ l) {ps : List (Str × Str)}
    (h : readLine false l = some ps) :
    ps = [] ∨ ∃ k v, ps = [(k, v)] ∧ isEscaped k = true ∧ k ≠ [] ∧ '\n' ∉ v := by
  obtain hNone | ⟨k, v, hps, hEq, hEsc, hk, hNewline⟩ := readLine_cases hl h
  · exact Or.inl hNone
  · refine Or.inr ⟨k, v, hps, hEsc, hk, fun hv => ?_⟩
    rw [hEq] at hNewline
    exact hNewline (List.mem_append_right _ (List.mem_cons_of_mem _ hv))

/-- The halves are those of the line, but for the carriage returns behind them. -/
theorem readLine_verbatim {l k v : Str} (hl : '\n' ∉ l) (h : readLine false l = some [(k, v)]) :
    v.getLast? ≠ some '\r' ∧ ∃ n, l = k ++ '=' :: (v ++ List.replicate n '\r') := by
  obtain hNone | ⟨k', v', hps, hEq, _⟩ := readLine_cases hl h
  · cases hNone
  · cases hps
    constructor
    · intro hLast
      have hBlank : l.rdropWhile (· == '\r') ≠ [] := by
        rw [← chomp, hEq]
        simp
      have hEnd := List.rdropWhile_last_not (· == '\r') l hBlank
      obtain ⟨v₀, rfl⟩ := List.getLast?_eq_some_iff.mp hLast
      have hForm : l.rdropWhile (· == '\r') = (k ++ '=' :: v₀) ++ ['\r'] := by
        rw [List.append_assoc, List.cons_append]
        exact hEq
      simp [hForm] at hEnd
    · obtain ⟨n, hChomp⟩ := chomp_append l
      refine ⟨n, hChomp.trans ?_⟩
      rw [hEq, List.append_assoc, List.cons_append]

end KeyValueText
