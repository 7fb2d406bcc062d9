import CisCore.Library.KeyValueText
import CisCore.Library.SortedMap
import Mathlib.Data.Char

/-! # The key-value codec library

The codec and the readers live in a library of their own, of which only the
interface is used here. `Lawful` collects what the core relies on.
-/

namespace CisCore

structure ProtoUtils where
  encodeParam : Str → Str
  decodeParam : Str → Option Str
  /-- All pairs of a stream in their order; `none` stands for an error. -/
  readIstreamOrderedKvStr : Str → Bool → Option (List (Str × Str))
  /-- The same pairs collected in a map that was empty before. -/
  readIstreamKvStr : Str → Bool → Option (SortedMap Str Str)

namespace ProtoUtils

/-- `k << '=' << v << '\n'` -/
def rawLine (k v : Str) : Str := k ++ '=' :: (v ++ ['\n'])

def encodedLine (P : ProtoUtils) (p : Str × Str) : Str :=
  rawLine (P.encodeParam p.1) (P.encodeParam p.2)

def encodedLines (P : ProtoUtils) (ps : List (Str × Str)) : Str := ps.flatMap P.encodedLine

def decodePair (P : ProtoUtils) (p : Str × Str) : Option (Str × Str) := do
  let k ← P.decodeParam p.1
  let v ← P.decodeParam p.2
  some (k, v)

/-- The readers work line by line. A line splits at its first unescaped `=`
into halves that are returned verbatim, the value without carriage returns at
its end, or decoded; an empty key is an error. -/
structure Lawful (P : ProtoUtils) : Prop where
  decode_encode : ∀ s, P.decodeParam (P.encodeParam s) = some s
  encode_escaped : ∀ s, KeyValueText.isEscaped (P.encodeParam s) = true
  encode_nil : P.encodeParam [] = []
  encode_cr : ∀ s, '\r' ∈ P.encodeParam s → '\r' ∈ s
  decode_trim : ∀ s n, (P.decodeParam (s ++ List.replicate n '\r')).isSome → (P.decodeParam s).isSome
  read_nil : ∀ decode, P.readIstreamOrderedKvStr [] decode = some []
  read_line : ∀ l t decode, '\n' ∉ l →
    P.readIstreamOrderedKvStr (l ++ '\n' :: t) decode =
      (P.readIstreamOrderedKvStr (l ++ ['\n']) decode).bind fun a =>
        (P.readIstreamOrderedKvStr t decode).map (a ++ ·)
  read_last : ∀ l decode, '\n' ∉ l →
    P.readIstreamOrderedKvStr l decode = P.readIstreamOrderedKvStr (l ++ ['\n']) decode
  read_pair : ∀ k v, KeyValueText.isEscaped k = true → k ≠ [] → '\n' ∉ v →
    ∃ v' n, v = v' ++ List.replicate n '\r' ∧
      P.readIstreamOrderedKvStr (rawLine k v) false = some [(k, v')]
  read_halves : ∀ l ps, '\n' ∉ l → P.readIstreamOrderedKvStr (l ++ ['\n']) false = some ps →
    ps = [] ∨ ∃ k v, ps = [(k, v)] ∧ KeyValueText.isEscaped k = true ∧ k ≠ [] ∧ '\n' ∉ v
  read_decoded : ∀ l, '\n' ∉ l →
    P.readIstreamOrderedKvStr (l ++ ['\n']) true =
      (P.readIstreamOrderedKvStr (l ++ ['\n']) false).bind (List.mapM P.decodePair)
  read_empty_key : ∀ v decode, '\n' ∉ v → P.readIstreamOrderedKvStr (rawLine [] v) decode = none
  map_none : ∀ text decode, P.readIstreamOrderedKvStr text decode = none →
    P.readIstreamKvStr text decode = none
  map_some : ∀ text decode ps, P.readIstreamOrderedKvStr text decode = some ps →
    ∃ m, P.readIstreamKvStr text decode = some m ∧
      (∀ k v, m.find k = some v → (k, v) ∈ ps) ∧ ∀ p ∈ ps, (m.find p.1).isSome

/-- The encoded line of the pair is read back as the pair. -/
def ParsesBack (P : ProtoUtils) (p : Str × Str) : Prop :=
  P.readIstreamOrderedKvStr (P.encodedLine p) true = some [p]

variable {P : ProtoUtils}

theorem rawLine_append (k v t : Str) : rawLine k v ++ t = (k ++ '=' :: v) ++ '\n' :: t := by
  simp [rawLine]

theorem rawLine_eq (k v : Str) : rawLine k v = (k ++ '=' :: v) ++ ['\n'] := by
  simp [rawLine]

theorem newline_not_mem_pair {k v : Str} (hk : '\n' ∉ k) (hv : '\n' ∉ v) : '\n' ∉ k ++ '=' :: v := by
  simp [hk, hv]

namespace Lawful

variable (hP : P.Lawful)
include hP

theorem encode_injective : Function.Injective P.encodeParam := by
  intro s t h
  have := hP.decode_encode s
  rw [h, hP.decode_encode] at this
  exact (Option.some.inj this).symm

theorem encode_ne_nil {s : Str} (h : s ≠ []) : P.encodeParam s ≠ [] := fun hNil =>
  h (hP.encode_injective (hNil.trans hP.encode_nil.symm))

theorem encode_newline (s : Str) : '\n' ∉ P.encodeParam s :=
  KeyValueText.newline_not_mem_of_isEscaped (hP.encode_escaped s)

theorem read_rawLine_append {k v : Str} (hk : '\n' ∉ k) (hv : '\n' ∉ v) (t : Str) (decode : Bool) :
    P.readIstreamOrderedKvStr (rawLine k v ++ t) decode =
      (P.readIstreamOrderedKvStr (rawLine k v) decode).bind fun a =>
        (P.readIstreamOrderedKvStr t decode).map (a ++ ·) := by
  rw [rawLine_append, rawLine_eq]
  exact hP.read_line _ t decode (newline_not_mem_pair hk hv)

theorem read_rawLine {k v : Str} (hEsc : KeyValueText.isEscaped k = true) (hk : k ≠ [])
    (hv : '\n' ∉ v) (hCr : '\r' ∉ v) :
    P.readIstreamOrderedKvStr (rawLine k v) false = some [(k, v)] := by
  obtain ⟨v', n, hEq, hRead⟩ := hP.read_pair k v hEsc hk hv
  cases n with
  | zero => rw [hRead, hEq, List.replicate_zero, List.append_nil]
  | succ n =>
    rw [hEq] at hCr
    simp at hCr

theorem read_decoded_rawLine {k v : Str} (hk : '\n' ∉ k) (hv : '\n' ∉ v) :
    P.readIstreamOrderedKvStr (rawLine k v) true =
      (P.readIstreamOrderedKvStr (rawLine k v) false).bind (List.mapM P.decodePair) := by
  rw [rawLine_eq]
  exact hP.read_decoded _ (newline_not_mem_pair hk hv)

theorem read_encodedLine {p : Str × Str} (hk : p.1 ≠ []) (hCr : '\r' ∉ p.2) :
    P.readIstreamOrderedKvStr (P.encodedLine p) false =
      some [(P.encodeParam p.1, P.encodeParam p.2)] :=
  hP.read_rawLine (hP.encode_escaped p.1) (hP.encode_ne_nil hk) (hP.encode_newline p.2)
    (fun h => hCr (hP.encode_cr p.2 h))

theorem parsesBack {p : Str × Str} (hk : p.1 ≠ []) (hCr : '\r' ∉ p.2) : P.ParsesBack p := by
  rw [ParsesBack, encodedLine,
    hP.read_decoded_rawLine (hP.encode_newline p.1) (hP.encode_newline p.2)]
  rw [← encodedLine, hP.read_encodedLine hk hCr]
  simp [decodePair, hP.decode_encode]

theorem read_rawLines {ps : List (Str × Str)} (h : ∀ p ∈ ps,
    KeyValueText.isEscaped p.1 = true ∧ p.1 ≠ [] ∧ '\n' ∉ p.2 ∧ '\r' ∉ p.2) :
    P.readIstreamOrderedKvStr (ps.flatMap fun p => rawLine p.1 p.2) false = some ps := by
  induction ps with
  | nil => exact hP.read_nil false
  | cons p ps ih =>
    obtain ⟨hEsc, hk, hv, hCr⟩ := h p List.mem_cons_self
    rw [List.flatMap_cons,
      hP.read_rawLine_append (KeyValueText.newline_not_mem_of_isEscaped hEsc) hv,
      hP.read_rawLine hEsc hk hv hCr, ih fun q hq => h q (List.mem_cons_of_mem _ hq)]
    rfl

theorem read_encodedLines_raw {ps : List (Str × Str)} (h : ∀ p ∈ ps, p.1 ≠ [] ∧ '\r' ∉ p.2) :
    P.readIstreamOrderedKvStr (P.encodedLines ps) false =
      some (ps.map fun p => (P.encodeParam p.1, P.encodeParam p.2)) := by
  have hLines : P.encodedLines ps =
      (ps.map fun p => (P.encodeParam p.1, P.encodeParam p.2)).flatMap fun p => rawLine p.1 p.2 := by
    rw [List.flatMap_map]
    rfl
  rw [hLines]
  apply hP.read_rawLines
  intro q hq
  obtain ⟨p, hp, rfl⟩ := List.mem_map.mp hq
  exact ⟨hP.encode_escaped p.1, hP.encode_ne_nil (h p hp).1, hP.encode_newline p.2,
    fun hMem => (h p hp).2 (hP.encode_cr p.2 hMem)⟩

theorem read_encodedLines {ps : List (Str × Str)} (h : ∀ p ∈ ps, P.ParsesBack p) :
    P.readIstreamOrderedKvStr (P.encodedLines ps) true = some ps := by
  induction ps with
  | nil => exact hP.read_nil true
  | cons p ps ih =>
    change P.readIstreamOrderedKvStr (P.encodedLine p ++ P.encodedLines ps) true = _
    rw [encodedLine, hP.read_rawLine_append (hP.encode_newline p.1) (hP.encode_newline p.2),
      ← encodedLine, h p List.mem_cons_self, ih fun q hq => h q (List.mem_cons_of_mem _ hq)]
    rfl

theorem readKv_find {text : Str} {decode : Bool} {ps : List (Str × Str)}
    (h : P.readIstreamOrderedKvStr text decode = some ps) (hNodup : (ps.map Prod.fst).Nodup) :
    ∃ m, P.readIstreamKvStr text decode = some m ∧ ∀ k v, m.find k = some v ↔ (k, v) ∈ ps := by
  obtain ⟨m, hRead, hMem, hKeys⟩ := hP.map_some text decode ps h
  refine ⟨m, hRead, fun k v => ⟨hMem k v, fun hkv => ?_⟩⟩
  obtain ⟨w, hw⟩ := Option.isSome_iff_exists.mp (hKeys (k, v) hkv)
  have hwMem := hMem k w hw
  have hEq : (k, v) = (k, w) := List.inj_on_of_nodup_map hNodup hkv hwMem rfl
  rw [(Prod.mk.inj hEq).2]
  exact hw

theorem readKv_isSome_iff (text : Str) (decode : Bool) :
    (P.readIstreamKvStr text decode).isSome ↔
      (P.readIstreamOrderedKvStr text decode).isSome := by
  cases h : P.readIstreamOrderedKvStr text decode with
  | none => simp [hP.map_none text decode h]
  | some ps =>
    obtain ⟨m, hRead, _⟩ := hP.map_some text decode ps h
    simp [hRead]

end Lawful

/-! ### A lawful implementation -/

/-- The codec with the escapes `\\`, `\=` and `\n` and a reader of its lines. -/
def reference : ProtoUtils where
  encodeParam := KeyValueText.escape
  decodeParam := KeyValueText.unescape
  readIstreamOrderedKvStr text decode := KeyValueText.read decode text
  readIstreamKvStr text decode := (KeyValueText.read decode text).map SortedMap.ofList

theorem reference_lawful : reference.Lawful where
  decode_encode := KeyValueText.unescape_escape
  encode_escaped := KeyValueText.isEscaped_escape
  encode_nil := rfl
  encode_cr s h := KeyValueText.mem_of_mem_escape (by decide) (by decide) h
  decode_trim s n h :=
    KeyValueText.unescape_isSome_of_append (fun c hc => List.eq_of_mem_replicate hc) h
  read_nil := KeyValueText.read_nil
  read_line l t decode hl := by
    simp only [reference]
    rw [KeyValueText.read_append_newline hl, KeyValueText.read_append_newline hl,
      KeyValueText.read_nil]
    cases KeyValueText.readLine decode l <;> simp
  read_last l decode hl := by
    simp only [reference]
    rw [KeyValueText.read_append_newline hl, KeyValueText.read_of_newline_not_mem hl,
      KeyValueText.read_nil]
    cases KeyValueText.readLine decode l <;> simp
  read_pair k v hEsc hk hv := by
    obtain ⟨n, hChomp⟩ := KeyValueText.chomp_append v
    refine ⟨KeyValueText.chomp v, n, hChomp, ?_⟩
    have hl := newline_not_mem_pair (KeyValueText.newline_not_mem_of_isEscaped hEsc) hv
    simp only [reference]
    rw [rawLine_eq, KeyValueText.read_append_newline hl, KeyValueText.read_nil,
      KeyValueText.readLine_pair hEsc hk]
    rfl
  read_halves l ps hl h := by
    simp only [reference] at h
    rw [KeyValueText.read_append_newline hl, KeyValueText.read_nil] at h
    apply KeyValueText.readLine_halves hl
    cases hLine : KeyValueText.readLine false l with
    | none => simp [hLine] at h
    | some a => simpa [hLine] using h
  read_decoded l hl := by
    simp only [reference]
    rw [KeyValueText.read_append_newline hl, KeyValueText.read_append_newline hl,
      KeyValueText.read_nil, KeyValueText.read_nil, KeyValueText.readLine_decoded]
    cases KeyValueText.readLine false l with
    | none => rfl
    | some a =>
      simp only [Option.bind_some, Option.map_some, List.append_nil, Option.bind_fun_some]
      cases h : List.mapM (fun p : Str × Str => do
        let k ← KeyValueText.unescape p.1
        let v ← KeyValueText.unescape p.2
        some (k, v)) a with
      | none => exact h.symm
      | some b => exact h.symm
  read_empty_key v decode hv := by
    simp only [reference]
    rw [rawLine_eq, KeyValueText.read_append_newline (newline_not_mem_pair (by simp) hv),
      List.nil_append, KeyValueText.readLine_empty_key]
    rfl
  map_none text decode h := by
    simp only [reference] at h ⊢
    rw [h]
    rfl
  map_some text decode ps h := by
    simp only [reference] at h ⊢
    rw [h]
    exact ⟨SortedMap.ofList ps, rfl, fun k v hFind => SortedMap.mem_of_find_ofList hFind,
      fun p hp => SortedMap.find_ofList_isSome hp⟩

end ProtoUtils

end CisCore
