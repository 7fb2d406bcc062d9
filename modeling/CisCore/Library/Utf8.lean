import CisCore.Library.Text
import Mathlib.Data.List.Induction

/-! # UTF-8 in byte strings

The encoding of the standard library, on strings with one character a byte.
Decoding is its strict inverse. The characters below 128 are single bytes and
appear in no other character's encoding.
-/

namespace Utf8

def ofBytes (bytes : List UInt8) : Str := bytes.map fun b => Char.ofNat b.toNat

def toBytes? (s : Str) : Option (List UInt8) :=
  if s.all (·.toNat < 256) then some (s.map fun c => UInt8.ofNat c.toNat) else none

def encodeChar (c : Char) : Str := ofBytes (String.utf8EncodeChar c)

def encode (s : List Char) : Str := s.flatMap encodeChar

def decode (s : Str) : Option (List Char) := do
  let bytes ← toBytes? s
  let text ← bytes.toByteArray.utf8Decode?
  some text.toList

theorem toNat_ofByte (b : UInt8) : (Char.ofNat b.toNat).toNat = b.toNat := by
  have hLt := b.toNat_lt
  have hValid : b.toNat.isValidChar := Or.inl (by omega)
  rw [Char.ofNat, dif_pos hValid]
  rfl

theorem toBytes?_ofBytes (bytes : List UInt8) : toBytes? (ofBytes bytes) = some bytes := by
  have hAll : (ofBytes bytes).all (·.toNat < 256) = true := by
    simp only [ofBytes, List.all_map, List.all_eq_true, Function.comp, toNat_ofByte, decide_eq_true_eq]
    exact fun b _ => b.toNat_lt
  rw [toBytes?, if_pos hAll, ofBytes, List.map_map]
  congr 1
  conv_rhs => rw [← List.map_id bytes]
  apply List.map_congr_left
  intro b _
  simp [toNat_ofByte]

theorem ofBytes_of_toBytes? {s : Str} {bytes : List UInt8} (h : toBytes? s = some bytes) :
    ofBytes bytes = s := by
  rw [toBytes?] at h
  split at h
  · rename_i hAll
    cases h
    rw [ofBytes, List.map_map]
    conv_rhs => rw [← List.map_id s]
    apply List.map_congr_left
    intro c hc
    have hLt : c.toNat < 256 := by simpa using List.all_eq_true.mp hAll c hc
    simp only [Function.comp, UInt8.toNat_ofNat', id]
    rw [Nat.mod_eq_of_lt (by omega), Char.ofNat_toNat]
  · cases h

theorem encode_eq (s : List Char) : encode s = ofBytes (s.flatMap String.utf8EncodeChar) := by
  rw [encode, ofBytes, List.map_flatMap]
  rfl

@[simp] theorem decode_encode (s : List Char) : decode (encode s) = some s := by
  have hDecode : (s.flatMap String.utf8EncodeChar).toByteArray.utf8Decode? = some s.toArray :=
    List.utf8Decode?_utf8Encode
  rw [decode, encode_eq, toBytes?_ofBytes]
  simp [hDecode]

theorem encode_of_decode {b : Str} {s : List Char} (h : decode b = some s) : encode s = b := by
  obtain ⟨bytes, hBytes, h⟩ := Option.bind_eq_some_iff.mp h
  obtain ⟨text, hText, h⟩ := Option.bind_eq_some_iff.mp h
  obtain rfl := Option.some.inj h
  have hSome : bytes.toByteArray.utf8Decode?.isSome = true := by rw [hText]; rfl
  have hEncode := ByteArray.utf8Encode_get_utf8Decode? (h := hSome)
  simp only [hText, Option.get_some] at hEncode
  have hList : text.toList.flatMap String.utf8EncodeChar = bytes := by
    have := congrArg (fun b : ByteArray => b.data.toList) hEncode
    simpa [List.utf8Encode] using this
  rw [encode_eq, hList, ofBytes_of_toBytes? hBytes]

theorem decode_eq_some_iff {b : Str} {s : List Char} : decode b = some s ↔ encode s = b :=
  ⟨encode_of_decode, fun h => h ▸ decode_encode s⟩

@[simp] theorem encode_append (s t : List Char) : encode (s ++ t) = encode s ++ encode t :=
  List.flatMap_append

/-! ### Characters of one byte -/

theorem encodeChar_of_lt {c : Char} (h : c.toNat < 128) : encodeChar c = [c] := by
  have hLe : c.val.toNat ≤ 0x7f := by
    change c.toNat ≤ 127
    omega
  have hByte : (UInt8.ofNat c.toNat).toNat = c.toNat := by
    simp only [UInt8.toNat_ofNat']
    omega
  rw [encodeChar, String.utf8EncodeChar]
  simp only [hLe, if_true, ofBytes, List.map_cons, List.map_nil]
  rw [← Char.ofNat_toNat c]
  simp [hByte]

theorem le_of_mem_encodeChar {c d : Char} (h : 128 ≤ c.toNat) (hd : d ∈ encodeChar c) :
    128 ≤ d.toNat := by
  obtain ⟨b, hb, rfl⟩ := List.mem_map.mp hd
  rw [toNat_ofByte]
  have hNot : ¬c.val.toNat ≤ 0x7f := by
    change ¬c.toNat ≤ 127
    omega
  rw [String.utf8EncodeChar] at hb
  simp only [hNot, if_false] at hb
  split_ifs at hb
  all_goals simp only [List.mem_cons, List.not_mem_nil, or_false] at hb
  · obtain rfl | rfl := hb <;> (simp only [UInt8.toNat_ofNat']; omega)
  · obtain rfl | rfl | rfl := hb <;> (simp only [UInt8.toNat_ofNat']; omega)
  · obtain rfl | rfl | rfl | rfl := hb <;> (simp only [UInt8.toNat_ofNat']; omega)

theorem encode_of_ascii {s : List Char} (h : s.all (·.toNat < 128) = true) : encode s = s := by
  induction s with
  | nil => rfl
  | cons c s ih =>
    rw [List.all_cons, Bool.and_eq_true, decide_eq_true_eq] at h
    rw [encode, List.flatMap_cons, encodeChar_of_lt h.1]
    exact congrArg (c :: ·) (ih h.2)

theorem decode_of_ascii {s : Str} (h : s.all (·.toNat < 128) = true) : decode s = some s :=
  decode_eq_some_iff.mpr (encode_of_ascii h)

theorem mem_encode_iff {c : Char} (hc : c.toNat < 128) {s : List Char} : c ∈ encode s ↔ c ∈ s := by
  rw [encode, List.mem_flatMap]
  constructor
  · rintro ⟨d, hd, hMem⟩
    by_cases h : d.toNat < 128
    · rw [encodeChar_of_lt h, List.mem_singleton] at hMem
      rwa [hMem]
    · have := le_of_mem_encodeChar (Nat.le_of_not_lt h) hMem
      omega
  · intro h
    exact ⟨c, h, by simp [encodeChar_of_lt hc]⟩

theorem exists_of_encode_concat {s : List Char} {pre : Str} {c : Char} (hc : c.toNat < 128)
    (h : encode s = pre ++ [c]) : ∃ s', s = s' ++ [c] ∧ encode s' = pre := by
  obtain rfl | ⟨s', d, rfl⟩ := List.eq_nil_or_concat s
  · simp [encode] at h
  · have hLast : encode [d] = encodeChar d := by simp [encode]
    rw [List.concat_eq_append, encode_append, hLast] at h
    by_cases hd : d.toNat < 128
    · rw [encodeChar_of_lt hd] at h
      obtain ⟨hPre, hEq⟩ := List.append_inj' h rfl
      cases hEq
      exact ⟨s', List.concat_eq_append, hPre⟩
    · -- the last byte of a longer encoding is no character below 128
      have hMem : c ∈ encodeChar d := by
        obtain hNil | ⟨bytes, b, hBytes⟩ := List.eq_nil_or_concat (encodeChar d)
        · exact absurd (List.map_eq_nil_iff.mp hNil) String.utf8EncodeChar_ne_nil
        · rw [hBytes, List.concat_eq_append, ← List.append_assoc] at h
          rw [hBytes, ← (List.cons.inj (List.append_inj' h rfl).2).1]
          simp
      have := le_of_mem_encodeChar (Nat.le_of_not_lt hd) hMem
      omega

/-- Single-byte characters at the end of an encoding end the text itself. -/
theorem exists_of_encode_append {s : List Char} {pre suffix : Str}
    (hSuffix : ∀ c ∈ suffix, c.toNat < 128) (h : encode s = pre ++ suffix) :
    ∃ s', s = s' ++ suffix ∧ encode s' = pre := by
  induction suffix using List.reverseRecOn generalizing s with
  | nil => exact ⟨s, (List.append_nil s).symm, by simpa using h⟩
  | append_singleton suffix c ih =>
    rw [← List.append_assoc] at h
    obtain ⟨s₁, rfl, h₁⟩ := exists_of_encode_concat (hSuffix c (by simp)) h
    obtain ⟨s', rfl, h'⟩ := ih (fun d hd => hSuffix d (List.mem_append_left _ hd)) h₁
    exact ⟨s', List.append_assoc _ _ _, h'⟩

end Utf8
