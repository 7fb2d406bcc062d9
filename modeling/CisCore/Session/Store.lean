import CisCore.Library.Transition
import CisCore.Session.KvFile
import Mathlib.Data.Set.List

/-! # A session file as a store

What a session file is for: it stores a map from names to values. The file of a
map is the encoding of its pairs in some order, one line for each name. Every
setter call turns the file of a map into the file of the map with the pair
inserted, and the getter reads that map.
-/

namespace CisCore

open Transition

/-- The pairs whose line is read back: a name, and no carriage return behind it. -/
def Storable (p : Str × Str) : Prop := p.1 ≠ [] ∧ '\r' ∉ p.2

def Encodes (P : ProtoUtils) (text : Str) (m : SortedMap Str Str) : Prop :=
  ∃ ps, text = P.encodedLines ps ∧ (∀ p ∈ ps, Storable p) ∧ (ps.map Prod.fst).Nodup ∧
    ∀ k v, m.find k = some v ↔ (k, v) ∈ ps

def Stores (P : ProtoUtils) (t : FileTree) (p : FsPath) (m : SortedMap Str Str) : Prop :=
  (t.find p = none ∧ m = ∅) ∨ ∃ text, t.content p = some text ∧ Encodes P text m

/-- The map that the raw reader returns for the file of `m`. -/
def RawOf (P : ProtoUtils) (values m : SortedMap Str Str) : Prop :=
  (∀ k v, m.find k = some v → Storable (k, v)) ∧
  ∀ k' v', values.find k' = some v' ↔
    ∃ k v, m.find k = some v ∧ k' = P.encodeParam k ∧ v' = P.encodeParam v

/-- The tree after a call that reports no error. -/
def accepted (r : FileTree × Ec) : Option FileTree :=
  match r with
  | (t, none) => some t
  | (_, some _) => none

theorem accepted_eq_some {r : FileTree × Ec} {t : FileTree} :
    accepted r = some t ↔ r = (t, none) := by
  obtain ⟨t', ec⟩ := r
  cases ec <;> simp [accepted]

def setAll (set : FileTree → Str → Str → FileTree × Ec) (t : FileTree) (calls : List (Str × Str)) :
    Option FileTree :=
  run (fun t c => accepted (set t c.1 c.2)) t calls

/-- The value of the last call with the name, or the empty string. -/
def lastValue (calls : List (Str × Str)) (name : Str) : Str :=
  ((calls.reverse.find? fun c => c.1 = name).map Prod.snd).getD []

variable {P : ProtoUtils} {os : Os}

theorem rawOf_empty : RawOf P ∅ ∅ := by
  constructor
  · intro k v h
    cases h
  · intro k' v'
    simp

theorem find_ne_directory_of_stores {t : FileTree} {p : FsPath} {m : SortedMap Str Str}
    (h : Stores P t p m) : t.find p ≠ some .directory := by
  obtain ⟨h, _⟩ | ⟨text, h, _⟩ := h
  · simp [h]
  · intro hDir
    simp [FileTree.content, hDir] at h

theorem readKv_of_encodes (hP : P.Lawful) {text : Str} {m : SortedMap Str Str}
    (h : Encodes P text m) : P.readIstreamKvStr text true = some m := by
  obtain ⟨ps, rfl, hStorable, hNodup, hFind⟩ := h
  have hRead := hP.read_encodedLines
    fun p hp => hP.parsesBack (hStorable p hp).1 (hStorable p hp).2
  obtain ⟨m', hRead', hFind'⟩ := hP.readKv_find hRead hNodup
  have hEq : m' = m := by
    apply SortedMap.ext_find
    intro k
    apply Option.ext
    intro v
    exact (hFind' k v).trans (hFind k v).symm
  rw [hRead', hEq]

theorem readKv_raw_of_encodes (hP : P.Lawful) {text : Str} {m : SortedMap Str Str}
    (h : Encodes P text m) :
    ∃ values, P.readIstreamKvStr text false = some values ∧ RawOf P values m := by
  obtain ⟨ps, rfl, hStorable, hNodup, hFind⟩ := h
  have hRead := hP.read_encodedLines_raw hStorable
  have hNodup' : ((ps.map fun p => (P.encodeParam p.1, P.encodeParam p.2)).map Prod.fst).Nodup := by
    rw [List.map_map]
    have hComp := hNodup.map hP.encode_injective
    rwa [List.map_map] at hComp
  obtain ⟨values, hValues, hFind'⟩ := hP.readKv_find hRead hNodup'
  refine ⟨values, hValues, fun k v hkv => hStorable _ ((hFind k v).mp hkv), fun k' v' => ?_⟩
  rw [hFind', List.mem_map]
  constructor
  · rintro ⟨⟨k, v⟩, hkv, hEq⟩
    cases hEq
    exact ⟨k, v, (hFind k v).mpr hkv, rfl, rfl⟩
  · rintro ⟨k, v, hkv, rfl, rfl⟩
    exact ⟨(k, v), (hFind k v).mp hkv, rfl⟩

theorem exists_pairs_of_rawOf (hP : P.Lawful) {values m : SortedMap Str Str}
    (hRaw : RawOf P values m) :
    ∃ ps : List (Str × Str), ps.map (Prod.map P.encodeParam P.encodeParam) = values.entries ∧
      (ps.map Prod.fst).Nodup ∧ ∀ k v, m.find k = some v ↔ (k, v) ∈ ps := by
  have hInj : Function.Injective (Prod.map P.encodeParam P.encodeParam) :=
    hP.encode_injective.prodMap hP.encode_injective
  have hEntry : ∀ e ∈ values.entries, ∃ p, Prod.map P.encodeParam P.encodeParam p = e := by
    rintro ⟨k', v'⟩ he
    obtain ⟨k, v, _, rfl, rfl⟩ := (hRaw.2 k' v').mp (SortedMap.find_eq_some_iff.mpr he)
    exact ⟨(k, v), rfl⟩
  have hRange : values.entries ∈ Set.range (List.map (Prod.map P.encodeParam P.encodeParam)) := by
    rw [Set.range_list_map]
    exact hEntry
  obtain ⟨ps, hps⟩ := hRange
  refine ⟨ps, hps, ?_, fun k v => ?_⟩
  · have hKeys : (ps.map Prod.fst).map P.encodeParam = values.keys := by
      rw [SortedMap.keys, ← hps, List.map_map, List.map_map]
      rfl
    exact List.Nodup.of_map _ (hKeys ▸ values.keys_nodup)
  · rw [← List.mem_map_of_injective hInj, hps, Prod.map_apply, ← SortedMap.find_eq_some_iff, hRaw.2]
    constructor
    · intro hkv
      exact ⟨k, v, hkv, rfl, rfl⟩
    · rintro ⟨k₁, v₁, hkv, hk, hv⟩
      rwa [hP.encode_injective hk, hP.encode_injective hv]

/-- Insertion into a map is an upsert into any list of its pairs. -/
theorem find_insert_iff {m : SortedMap Str Str} {ps : List (Str × Str)}
    (h : ∀ k v, m.find k = some v ↔ (k, v) ∈ ps) (name value k v : Str) :
    (m.insert name value).find k = some v ↔ (k, v) ∈ EntryList.upsert name value ps := by
  by_cases hk : k = name
  · rw [hk, SortedMap.find_insert_self, EntryList.mem_upsert_self, Option.some.injEq, eq_comm]
  · rw [SortedMap.find_insert_of_ne m value hk, EntryList.mem_upsert_of_ne hk, h]

theorem encodes_writeValues (hP : P.Lawful) {values m : SortedMap Str Str} (hRaw : RawOf P values m)
    {name value : Str} (hPair : Storable (name, value)) :
    Encodes P (writeValues (P.encodeParam name) (P.encodeParam value) values)
      (m.insert name value) := by
  obtain ⟨ps, hps, hNodup, hFind⟩ := exists_pairs_of_rawOf hP hRaw
  refine ⟨EntryList.upsert name value ps, ?_, ?_, EntryList.upsert_nodup name value hNodup,
    find_insert_iff hFind name value⟩
  · rw [writeValues_eq, ← hps, EntryList.upsert_map hP.encode_injective, List.flatMap_map]
    rfl
  · intro q hq
    obtain rfl | ⟨_, hOld⟩ := EntryList.mem_upsert_cases hq
    · exact hPair
    · exact hRaw.1 q.1 q.2 ((hFind q.1 q.2).mpr hOld)

/-! ### Refinement -/

theorem readKvFile_of_stores (hP : P.Lawful) (hOs : os.Faultless) {t : FileTree} {p : FsPath}
    {m : SortedMap Str Str} (h : Stores P t p m) (e : ErrorCode) :
    readKvFile P os t p true e = (some m, none) := by
  obtain ⟨hAbsent, rfl⟩ | ⟨text, hText, hEnc⟩ := h
  · exact readKvFile_absent hOs hAbsent true e
  · rw [readKvFile_present hOs hText, readKv_of_encodes hP hEnc]

theorem readKvFile_raw_of_stores (hP : P.Lawful) (hOs : os.Faultless) {t : FileTree} {p : FsPath}
    {m : SortedMap Str Str} (h : Stores P t p m) (e : ErrorCode) :
    ∃ values, readKvFile P os t p false e = (some values, none) ∧ RawOf P values m := by
  obtain ⟨hAbsent, rfl⟩ | ⟨text, hText, hEnc⟩ := h
  · exact ⟨∅, readKvFile_absent hOs hAbsent false e, rawOf_empty⟩
  · obtain ⟨values, hValues, hRaw⟩ := readKv_raw_of_encodes hP hEnc
    exact ⟨values, by rw [readKvFile_present hOs hText, hValues], hRaw⟩

/-- The setter refines insertion. Nothing but its file changes. -/
theorem setKvFile_refines (hP : P.Lawful) (hOs : os.Faultless) {t : FileTree} {p : FsPath}
    {m : SortedMap Str Str} (h : Stores P t p m) (hParent : t.isDirectory p.tail = true)
    (e : ErrorCode) {name value : Str} (hPair : Storable (name, value)) :
    ∃ text, setKvFile P os t p e name value = (t.write p text, none) ∧
      Encodes P text (m.insert name value) := by
  obtain ⟨values, hRead, hRaw⟩ := readKvFile_raw_of_stores hP hOs h .cantReadSessionValuesFile
  exact ⟨_, setKvFile_faultless hOs hParent (find_ne_directory_of_stores h) hRead,
    encodes_writeValues hP hRaw hPair⟩

/-- What a reader without an error has found is what the file stores. -/
theorem ReadBefore.of_stores {t : FileTree} {p : FsPath} {values m : SortedMap Str Str}
    {decode : Bool} (hBefore : ReadBefore P os t p decode values) (h : Stores P t p m) :
    (values = ∅ ∧ m = ∅) ∨
      ∃ text, Encodes P text m ∧ P.readIstreamKvStr text decode = some values := by
  obtain ⟨hAbsent, rfl⟩ | ⟨text, hText, hEnc⟩ := h
  · obtain ⟨_, rfl⟩ | ⟨text, hOpen, _⟩ := hBefore
    · exact Or.inl ⟨rfl, rfl⟩
    · simp [Os.openIfstream, hAbsent] at hOpen
  · obtain ⟨hAbsent, _⟩ | ⟨text', hOpen, hRead⟩ := hBefore
    · simp [FileTree.content, hAbsent] at hText
    · have hSame := Os.openIfstream_text hOpen
      rw [hText, Option.getD_some] at hSame
      exact Or.inr ⟨text, hEnc, hSame ▸ hRead⟩

/-- So does a call that reports no error, whatever may fail. -/
theorem setKvFile_clear_refines (hP : P.Lawful) {t t' : FileTree} {p : FsPath}
    {m : SortedMap Str Str} (h : Stores P t p m) {e : ErrorCode} {name value : Str}
    (hPair : Storable (name, value)) (hSet : setKvFile P os t p e name value = (t', none)) :
    Stores P t' p (m.insert name value) := by
  obtain ⟨values, rfl, hBefore⟩ := setKvFile_clear hSet
  have hRaw : RawOf P values m := by
    obtain ⟨rfl, rfl⟩ | ⟨text, hEnc, hRead⟩ := hBefore.of_stores h
    · exact rawOf_empty
    · obtain ⟨values', hValues, hRaw⟩ := readKv_raw_of_encodes hP hEnc
      rw [hValues] at hRead
      cases hRead
      exact hRaw
  exact Or.inr ⟨_, FileTree.content_write_self t p _, encodes_writeValues hP hRaw hPair⟩

theorem readKvFile_clear_of_stores (hP : P.Lawful) {t : FileTree} {p : FsPath}
    {m : SortedMap Str Str} (h : Stores P t p m) {e : ErrorCode}
    (hClear : (readKvFile P os t p true e).2 = none) :
    readKvFile P os t p true e = (some m, none) := by
  obtain ⟨values, hRead, hBefore⟩ := readKvFile_clear hClear
  have hValues : values = m := by
    obtain ⟨rfl, rfl⟩ | ⟨text, hEnc, hValues⟩ := hBefore.of_stores h
    · rfl
    · rw [readKv_of_encodes hP hEnc] at hValues
      exact (Option.some.inj hValues).symm
  rw [hRead, hValues]

/-- The getter refines lookup. -/
theorem getKvFile_refines (hP : P.Lawful) (hOs : os.Faultless) {t : FileTree} {p : FsPath}
    {m : SortedMap Str Str} (h : Stores P t p m) (e : ErrorCode) (name : Str) :
    getKvFile P os t p e name = (some ((m.find name).getD []), none) := by
  rw [getKvFile, readKvFile_of_stores hP hOs h]

theorem isDirectory_write {t : FileTree} {p q : FsPath} (text : Str) (h : t.isDirectory q = true)
    (hne : q ≠ p) : (t.write p text).isDirectory q = true := by
  rw [FileTree.isDirectory, FileTree.find_write_of_ne text hne]
  exact h

theorem setAll_refines (hP : P.Lawful) (hOs : os.Faultless) {p : FsPath} (hp : p ≠ [])
    (e : ErrorCode) (calls : List (Str × Str)) (hCalls : ∀ c ∈ calls, Storable c) {t : FileTree}
    {m : SortedMap Str Str} (h : Stores P t p m) (hParent : t.isDirectory p.tail = true) :
    ∃ t', setAll (fun t => setKvFile P os t p e) t calls = some t' ∧
      Stores P t' p (calls.foldl (fun m c => m.insert c.1 c.2) m) ∧
      ∀ q, q ≠ p → t'.find q = t.find q := by
  induction calls generalizing t m with
  | nil => exact ⟨t, rfl, h, fun _ _ => rfl⟩
  | cons c calls ih =>
    obtain ⟨text, hSet, hEnc⟩ :=
      setKvFile_refines hP hOs h hParent e (hCalls c List.mem_cons_self)
    have hTail : p.tail ≠ p := by
      intro heq
      have := congrArg List.length heq
      have := List.length_pos_of_ne_nil hp
      simp at *
      omega
    obtain ⟨t', hRun, hStores, hFrame⟩ := ih (fun d hd => hCalls d (List.mem_cons_of_mem _ hd))
      (Or.inr ⟨text, FileTree.content_write_self t p text, hEnc⟩)
      (isDirectory_write text hParent hTail)
    refine ⟨t', ?_, hStores, fun q hq => ?_⟩
    · rw [setAll, run_cons, hSet]
      exact hRun
    · rw [hFrame q hq, FileTree.find_write_of_ne text hq]

theorem find_foldl_eq_lastValue (calls : List (Str × Str)) (name : Str) :
    ((calls.foldl (fun m c => m.insert c.1 c.2) (∅ : SortedMap Str Str)).find name).getD [] =
      lastValue calls name := by
  rw [SortedMap.find_foldl_insert, SortedMap.find_empty, Option.or_none]
  rfl

/-- Last write wins: after any sequence of `setValue` calls in a session that
had no value file, `getValue` returns the last value set, and the file has one
line for each name that was set. -/
theorem setValue_last_write_wins (hP : P.Lawful) (hOs : os.Faultless) (ctx : Context)
    (session : Session) (t : FileTree) (hAbsent : t.find (sessionDat ctx session) = none)
    (hSessions : t.isDirectory (ctx.baseDir / "sessions") = true) (calls : List (Str × Str))
    (hCalls : ∀ c ∈ calls, c.1 ≠ [] ∧ '\r' ∉ c.2) :
    ∃ t', setAll (fun t => setValue P os t ctx session) t calls = some t' ∧
      (∀ name, getValue P os t' ctx session name = (some (lastValue calls name), none)) ∧
      (calls ≠ [] → ∃ ps, t'.content (sessionDat ctx session) = some (P.encodedLines ps) ∧
        (ps.map Prod.fst).Nodup ∧ ∀ name, name ∈ ps.map Prod.fst ↔ name ∈ calls.map Prod.fst) := by
  obtain ⟨t', hRun, hStores, _⟩ := setAll_refines hP hOs (p := sessionDat ctx session) (by simp [sessionDat])
    .cantReadSessionValuesFile calls hCalls (Or.inl ⟨hAbsent, rfl⟩) hSessions
  refine ⟨t', hRun, fun name => ?_, fun hne => ?_⟩
  · rw [getValue, getKvFile_refines hP hOs hStores, find_foldl_eq_lastValue]
  · have hKeys : ∀ name, ((calls.foldl (fun m c => m.insert c.1 c.2)
        (∅ : SortedMap Str Str)).find name).isSome ↔ name ∈ calls.map Prod.fst := by
      intro name
      rw [SortedMap.find_foldl_insert]
      simp
    obtain ⟨_, hEmpty⟩ | ⟨text, hText, ps, rfl, _, hNodup, hFind⟩ := hStores
    · obtain ⟨c, rest, rfl⟩ := List.exists_cons_of_ne_nil hne
      have := (hKeys c.1).mpr (by simp)
      rw [hEmpty] at this
      cases this
    · refine ⟨ps, hText, hNodup, fun name => ?_⟩
      rw [← hKeys, Option.isSome_iff_exists, List.mem_map]
      constructor
      · rintro ⟨p, hp, rfl⟩
        exact ⟨p.2, (hFind p.1 p.2).mpr hp⟩
      · rintro ⟨v, hv⟩
        exact ⟨(name, v), (hFind name v).mp hv, rfl⟩

theorem setValue_last_write_wins_three :
    ∃ t', setAll (fun t => setValue .reference (.ideal ∅) t ⟨[], ∅, 1, 0⟩ ⟨"s", false⟩)
        (.ofList [([], .directory), (["sessions".toList], .directory)])
        [("a", "1"), ("b", "x=\\\n"), ("a", "2")] = some t' ∧
      (∀ name, getValue .reference (.ideal ∅) t' ⟨[], ∅, 1, 0⟩ ⟨"s", false⟩ name =
        (some (lastValue [("a", "1"), ("b", "x=\\\n"), ("a", "2")] name), none)) ∧
      ([(("a" : Str), ("1" : Str)), ("b", "x=\\\n"), ("a", "2")] ≠ [] →
        ∃ ps, t'.content (sessionDat ⟨[], ∅, 1, 0⟩ ⟨"s", false⟩) =
            some (ProtoUtils.reference.encodedLines ps) ∧
          (ps.map Prod.fst).Nodup ∧ ∀ name, name ∈ ps.map Prod.fst ↔
            name ∈ [(("a" : Str), ("1" : Str)), ("b", "x=\\\n"), ("a", "2")].map Prod.fst) :=
  setValue_last_write_wins ProtoUtils.reference_lawful (Os.ideal_faultless ∅) ⟨[], ∅, 1, 0⟩
    ⟨"s", false⟩ _ (by decide) (by decide) _ (by decide)

end CisCore
