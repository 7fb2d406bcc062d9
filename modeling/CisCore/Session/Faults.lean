import CisCore.Session.Commands

/-! # Setters on a system where operations fail

A setter looks neither at the error of `exists` before it truncates the file nor
at the stream after it has written to it. What is left of the file then depends on
how much of the new text a failing write has lost.
-/

namespace CisCore

section Model

variable (P : ProtoUtils) (os : Os) (lost : Nat)

/-- `setKvFile` where a failing write loses the end of the text. The stream is not checked. -/
def setKvFileLosing (t : FileTree) (p : FsPath) (writeError : ErrorCode) (name value : Str) :
    FileTree × Ec :=
  match readKvFile P os t p false .cantReadSessionValuesFile with
  | (none, ec) => (t, ec)
  | (some values, ec) =>
    match os.openOfstream t p with
    | none => (t, fail writeError)
    | some t' =>
      (t'.overwrite p
        ((writeValues (P.encodeParam name) (P.encodeParam value) values).rdrop lost), ec)

def Setter.path (ctx : Context) (session : Session) : Setter → FsPath
  | .setvalue => sessionDat ctx session
  | .setparam => sessionPrm ctx session

def Setter.writeError : Setter → ErrorCode
  | .setvalue => .cantReadSessionValuesFile
  | .setparam => .cantWriteSessionParamsFile

/-- `setValue` or `setParam` on such a system. -/
def Setter.call (s : Setter) (t : FileTree) (ctx : Context) (session : Session) (name value : Str) :
    FileTree × Ec :=
  setKvFileLosing P os lost t (s.path ctx session) s.writeError name value

/-- The pairs that a file holds for the setters. -/
def RawPairs (t : FileTree) (p : FsPath) (values : SortedMap Str Str) : Prop :=
  (t.find p = none ∧ values = ∅) ∨
    ∃ text, t.content p = some text ∧ P.readIstreamKvStr text false = some values

/-- The new file is read as the old map with the pair, raw and, where the old one is the
file of a map, decoded. -/
def Updated (t t' : FileTree) (p : FsPath) (name value : Str) : Prop :=
  ∃ values text, RawPairs P t p values ∧ t'.content p = some text ∧
    P.readIstreamKvStr text false =
      some (values.insert (P.encodeParam name) (P.encodeParam value)) ∧
    ∀ m, Stores P t p m → P.readIstreamKvStr text true = some (m.insert name value)

end Model

theorem setKvFileLosing_zero (P : ProtoUtils) (os : Os) (t : FileTree) (p : FsPath) (e : ErrorCode)
    (name value : Str) : setKvFileLosing P os 0 t p e name value = setKvFile P os t p e name value := by
  simp only [setKvFileLosing, List.rdrop_zero]
  rfl

theorem Setter.call_setvalue (P : ProtoUtils) (os : Os) (t : FileTree) (ctx : Context)
    (session : Session) (name value : Str) :
    Setter.setvalue.call P os 0 t ctx session name value = setValue P os t ctx session name value :=
  setKvFileLosing_zero P os t _ _ name value

theorem Setter.call_setparam (P : ProtoUtils) (os : Os) (t : FileTree) (ctx : Context)
    (session : Session) (name value : Str) :
    Setter.setparam.call P os 0 t ctx session name value = setParam P os t ctx session name value :=
  setKvFileLosing_zero P os t _ _ name value

/-- A reader returns the halves of a line verbatim, but for the carriage returns at its end. -/
def ProtoUtils.Verbatim (P : ProtoUtils) : Prop :=
  ∀ l k v, '\n' ∉ l → P.readIstreamOrderedKvStr (l ++ ['\n']) false = some [(k, v)] →
    v.getLast? ≠ some '\r' ∧ ∃ n, l = k ++ '=' :: (v ++ List.replicate n '\r')

theorem ProtoUtils.reference_verbatim : reference.Verbatim := by
  intro l k v hl h
  simp only [reference] at h
  rw [KeyValueText.read_append_newline hl, KeyValueText.read_nil] at h
  apply KeyValueText.readLine_verbatim hl
  cases hLine : KeyValueText.readLine false l with
  | none => simp [hLine] at h
  | some a => simpa [hLine] using h

/-- The line of the pair is read as that pair. -/
def ProtoUtils.ReadsBack (P : ProtoUtils) (p : Str × Str) : Prop :=
  P.readIstreamOrderedKvStr (P.encodedLine p) false =
    some [(P.encodeParam p.1, P.encodeParam p.2)]

/-! ### What the raw reader returns -/

section Reader

variable {P : ProtoUtils} (hP : P.Lawful) (hV : P.Verbatim)
include hP

/-- A newline at the end of a text makes no difference. -/
theorem read_concat_newline (text : Str) (decode : Bool) :
    P.readIstreamOrderedKvStr (text ++ ['\n']) decode = P.readIstreamOrderedKvStr text decode := by
  induction text using Text.line_induction with
  | last l hl => exact (hP.read_last l decode hl).symm
  | line l t hl ih =>
    rw [List.append_assoc, List.cons_append, hP.read_line l _ decode hl, ih,
      ← hP.read_line l t decode hl]

/-- Every pair comes from a line of its own, and together they are no longer than the text. -/
theorem read_pairs {text : Str} {ps : List (Str × Str)}
    (h : P.readIstreamOrderedKvStr text false = some ps) :
    (∀ p ∈ ps, ∃ l, '\n' ∉ l ∧ P.readIstreamOrderedKvStr (l ++ ['\n']) false = some [p]) ∧
      (P.Verbatim → (rawLines ps).length ≤ text.length + 1) := by
  induction text using Text.line_induction generalizing ps with
  | last l hl =>
    rw [hP.read_last l false hl] at h
    obtain rfl | ⟨k, v, rfl, _⟩ := hP.read_halves l ps hl h
    · exact ⟨by simp, fun _ => Nat.zero_le _⟩
    · refine ⟨fun p hp => ⟨l, hl, List.mem_singleton.mp hp ▸ h⟩, fun hV => ?_⟩
      obtain ⟨_, n, rfl⟩ := hV l k v hl h
      simp [rawLines, ProtoUtils.rawLine]
      omega
  | line l t hl ih =>
    rw [hP.read_line l t false hl] at h
    obtain ⟨first, hFirst, hBind⟩ := Option.bind_eq_some_iff.mp h
    obtain ⟨rest, hRest, rfl⟩ := Option.map_eq_some_iff.mp hBind
    obtain ⟨hLines, hLength⟩ := ih hRest
    obtain rfl | ⟨k, v, rfl, _⟩ := hP.read_halves l first hl hFirst
    · refine ⟨hLines, fun hV => (hLength hV).trans ?_⟩
      rw [List.length_append, List.length_cons]
      omega
    · constructor
      · rintro p (_ | ⟨_, hp⟩)
        · exact ⟨l, hl, hFirst⟩
        · exact hLines p hp
      · intro hV
        have hTail := hLength hV
        obtain ⟨_, n, rfl⟩ := hV l k v hl hFirst
        simp [rawLines, ProtoUtils.rawLine] at hTail ⊢
        omega

include hV

/-- What a line is read as reads the same when it is written as a line again. -/
theorem read_again {l k v : Str} (hl : '\n' ∉ l)
    (h : P.readIstreamOrderedKvStr (l ++ ['\n']) false = some [(k, v)]) :
    P.readIstreamOrderedKvStr (ProtoUtils.rawLine k v) false = some [(k, v)] := by
  obtain hNil | ⟨_, _, hPair, hEsc, hk, hv⟩ := hP.read_halves l _ hl h
  · cases hNil
  · cases hPair
    obtain ⟨v', n, hTrim, hRead⟩ := hP.read_pair k v hEsc hk hv
    cases n with
    | zero => rw [hRead, hTrim, List.replicate_zero, List.append_nil]
    | succ n =>
      refine absurd ?_ (hV l k v hl h).1
      rw [hTrim, List.replicate_succ', ← List.append_assoc, List.getLast?_concat]

end Reader

/-! ### Lines and entries -/

theorem length_rawLines_le {es ps : List (Str × Str)} (hNodup : es.Nodup) (h : ∀ e ∈ es, e ∈ ps) :
    (rawLines es).length ≤ (rawLines ps).length := by
  obtain ⟨es', hPerm, hSublist⟩ := List.subperm_of_subset hNodup h
  obtain ⟨rest, hRest⟩ := hSublist.exists_perm_append
  have hPs := (hRest.flatMap_right fun e => ProtoUtils.rawLine e.1 e.2).length_eq
  have hEs := (hPerm.flatMap_right fun e => ProtoUtils.rawLine e.1 e.2).length_eq
  rw [List.flatMap_append, List.length_append] at hPs
  unfold rawLines
  omega

variable {P : ProtoUtils}

theorem read_rawLines_self (hP : P.Lawful) {es : List (Str × Str)}
    (h : ∀ e ∈ es, '\n' ∉ e.1 ∧ '\n' ∉ e.2 ∧
      P.readIstreamOrderedKvStr (ProtoUtils.rawLine e.1 e.2) false = some [e]) :
    P.readIstreamOrderedKvStr (rawLines es) false = some es := by
  induction es with
  | nil => exact hP.read_nil false
  | cons e es ih =>
    obtain ⟨hKey, hValue, hLine⟩ := h e List.mem_cons_self
    change P.readIstreamOrderedKvStr (ProtoUtils.rawLine e.1 e.2 ++ rawLines es) false = _
    rw [hP.read_rawLine_append hKey hValue, hLine, ih fun e' he' => h e' (List.mem_cons_of_mem _ he')]
    rfl

/-- The pairs of the lines of a list of entries are those of its single lines. -/
theorem exists_line_of_mem (hP : P.Lawful) {es ps : List (Str × Str)}
    (hLines : ∀ e ∈ es, '\n' ∉ e.1 ∧ '\n' ∉ e.2)
    (h : P.readIstreamOrderedKvStr (rawLines es) false = some ps) {p : Str × Str} (hp : p ∈ ps) :
    ∃ e ∈ es, ∃ line, P.readIstreamOrderedKvStr (ProtoUtils.rawLine e.1 e.2) false = some line ∧
      p ∈ line := by
  induction es generalizing ps with
  | nil =>
    obtain rfl := Option.some.inj ((hP.read_nil false).symm.trans h)
    cases hp
  | cons e es ih =>
    obtain ⟨hKey, hValue⟩ := hLines e List.mem_cons_self
    change P.readIstreamOrderedKvStr (ProtoUtils.rawLine e.1 e.2 ++ rawLines es) false = _ at h
    rw [hP.read_rawLine_append hKey hValue] at h
    obtain ⟨first, hFirst, hBind⟩ := Option.bind_eq_some_iff.mp h
    obtain ⟨rest, hRest, rfl⟩ := Option.map_eq_some_iff.mp hBind
    obtain hp | hp := List.mem_append.mp hp
    · exact ⟨e, List.mem_cons_self, first, hFirst, hp⟩
    · obtain ⟨e', he', hLine⟩ := ih (fun e' he' => hLines e' (List.mem_cons_of_mem _ he')) hRest hp
      exact ⟨e', List.mem_cons_of_mem _ he', hLine⟩

/-- The lines of entries without the end that was lost. At most the last newline
may be missing. -/
theorem lost_le_of_read (hP : P.Lawful) (hV : P.Verbatim) {es : List (Str × Str)} (hne : es ≠ [])
    (hNodup : (es.map Prod.fst).Nodup) {lost : Nat} {m : SortedMap Str Str}
    (hRead : P.readIstreamKvStr ((rawLines es).rdrop lost) false = some m)
    (hFind : ∀ e ∈ es, m.find e.1 = some e.2) : lost ≤ 1 := by
  obtain ⟨ps, hOrdered, hMem⟩ := exists_raw_of_readKv hP hRead
  have hShort := (read_pairs hP hOrdered).2 hV
  have hLe := length_rawLines_le (List.Nodup.of_map _ hNodup) fun e he =>
    hMem e (SortedMap.find_eq_some_iff.mp (hFind e he))
  have hDrop : ((rawLines es).rdrop lost).length = (rawLines es).length - lost := by
    rw [List.rdrop, List.length_take]
    omega
  have hLong : 2 ≤ (rawLines es).length := by
    obtain ⟨e, rest, rfl⟩ := List.exists_cons_of_ne_nil hne
    simp [rawLines, ProtoUtils.rawLine]
    omega
  omega

/-- Without the last newline the text is read as it is with it. -/
theorem read_rdrop (hP : P.Lawful) (es : List (Str × Str)) {lost : Nat} (hLost : lost ≤ 1)
    (decode : Bool) :
    P.readIstreamOrderedKvStr ((rawLines es).rdrop lost) decode =
      P.readIstreamOrderedKvStr (rawLines es) decode := by
  obtain rfl | rfl : lost = 0 ∨ lost = 1 := by omega
  · rw [List.rdrop_zero]
  · obtain rfl | ⟨init, e, rfl⟩ := es.eq_nil_or_concat'
    · rfl
    · have hText : rawLines (init ++ [e]) = (rawLines init ++ (e.1 ++ '=' :: e.2)) ++ ['\n'] := by
        simp [rawLines, ProtoUtils.rawLine]
      rw [hText, List.rdrop_concat_succ, List.rdrop_zero, read_concat_newline hP]

/-! ### What becomes of the pairs -/

section Pairs

variable {os : Os} {t : FileTree} {p : FsPath} {values : SortedMap Str Str}

theorem RawPairs.unique {values' : SortedMap Str Str} (h : RawPairs P t p values)
    (h' : RawPairs P t p values') : values' = values := by
  obtain ⟨hNone, rfl⟩ | ⟨text, hText, hRead⟩ := h
  · obtain ⟨_, rfl⟩ | ⟨text', hText', _⟩ := h'
    · rfl
    · rw [FileTree.content, hNone] at hText'
      cases hText'
  · obtain ⟨hNone, rfl⟩ | ⟨text', hText', hRead'⟩ := h'
    · rw [FileTree.content, hNone] at hText
      cases hText
    · obtain rfl := Option.some.inj (hText.symm.trans hText')
      exact Option.some.inj (hRead'.symm.trans hRead)

/-- The pairs of a file are read again when they are written as lines. -/
theorem RawPairs.read_again (hP : P.Lawful) (hV : P.Verbatim) (h : RawPairs P t p values)
    {e : Str × Str} (he : e ∈ values.entries) : '\n' ∉ e.1 ∧ '\n' ∉ e.2 ∧
      P.readIstreamOrderedKvStr (ProtoUtils.rawLine e.1 e.2) false = some [e] := by
  obtain ⟨_, rfl⟩ | ⟨text, _, hRead⟩ := h
  · cases he
  · obtain ⟨ps, hOrdered, hMem⟩ := exists_raw_of_readKv hP hRead
    have hKey := (text_accepted hP text hOrdered).1 e (hMem e he)
    obtain ⟨l, hl, hLine⟩ := (read_pairs hP hOrdered).1 e (hMem e he)
    exact ⟨hKey.newline, hKey.2.2, CisCore.read_again hP hV hl hLine⟩

theorem RawPairs.rawOf (hP : P.Lawful) (h : RawPairs P t p values) {m : SortedMap Str Str}
    (hStores : Stores P t p m) : RawOf P values m := by
  obtain ⟨hAbsent, rfl⟩ | ⟨text, hText, hEnc⟩ := hStores
  · rw [← h.unique (Or.inl ⟨hAbsent, rfl⟩)]
    exact rawOf_empty
  · obtain ⟨values', hRead, hRaw⟩ := readKv_raw_of_encodes hP hEnc
    rw [← h.unique (Or.inr ⟨text, hText, hRead⟩)]
    exact hRaw

theorem parsesBack_of_readsBack (hP : P.Lawful) {q : Str × Str} (h : P.ReadsBack q) :
    P.ParsesBack q := by
  rw [ProtoUtils.ParsesBack, ProtoUtils.encodedLine,
    hP.read_decoded_rawLine (hP.encode_newline q.1) (hP.encode_newline q.2)]
  rw [← ProtoUtils.encodedLine, h]
  simp [ProtoUtils.decodePair, hP.decode_encode]

/-- What the setter writes is read as the map with the pair, even without the last newline. -/
theorem updated_of_readsBack (hP : P.Lawful) (hV : P.Verbatim) (h : RawPairs P t p values)
    {name value : Str} (hPair : P.ReadsBack (name, value)) {lost : Nat} (hLost : lost ≤ 1) :
    Updated P t (t.write p
      ((writeValues (P.encodeParam name) (P.encodeParam value) values).rdrop lost)) p name value := by
  have hText : writeValues (P.encodeParam name) (P.encodeParam value) values =
      rawLines (EntryList.upsert (P.encodeParam name) (P.encodeParam value) values.entries) :=
    writeValues_eq _ _ values
  have hEach : ∀ e ∈ EntryList.upsert (P.encodeParam name) (P.encodeParam value) values.entries,
      '\n' ∉ e.1 ∧ '\n' ∉ e.2 ∧
        P.readIstreamOrderedKvStr (ProtoUtils.rawLine e.1 e.2) false = some [e] := by
    intro e he
    obtain rfl | ⟨_, hOld⟩ := EntryList.mem_upsert_cases he
    · exact ⟨hP.encode_newline name, hP.encode_newline value, hPair⟩
    · exact h.read_again hP hV hOld
  have hSelf := read_rawLines_self hP hEach
  refine ⟨values, _, h, FileTree.content_write_self t p _, ?_, fun m hStores => ?_⟩
  · rw [← read_rdrop hP _ hLost] at hSelf
    obtain ⟨m, hRead, hFind⟩ := hP.readKv_find hSelf
      (EntryList.upsert_nodup _ _ values.keys_nodup)
    rw [hText, hRead, Option.some.injEq]
    apply SortedMap.ext_find
    intro k
    apply Option.ext
    intro v
    rw [hFind, find_insert_iff (fun k v => SortedMap.find_eq_some_iff)]
  · have hRaw := h.rawOf hP hStores
    obtain ⟨ps, hps, hNodup, hFind⟩ := exists_pairs_of_rawOf hP hRaw
    have hEncoded : rawLines (EntryList.upsert (P.encodeParam name) (P.encodeParam value)
        values.entries) = P.encodedLines (EntryList.upsert name value ps) := by
      rw [← hps, EntryList.upsert_map hP.encode_injective, rawLines, List.flatMap_map]
      rfl
    have hBack : ∀ q ∈ EntryList.upsert name value ps, P.ParsesBack q := by
      intro q hq
      obtain rfl | ⟨_, hOld⟩ := EntryList.mem_upsert_cases hq
      · exact parsesBack_of_readsBack hP hPair
      · have hStorable := hRaw.1 q.1 q.2 ((hFind q.1 q.2).mpr hOld)
        exact hP.parsesBack hStorable.1 hStorable.2
    have hDecoded := hP.read_encodedLines hBack
    rw [← hEncoded, ← read_rdrop hP _ hLost] at hDecoded
    obtain ⟨m', hRead, hFind'⟩ := hP.readKv_find hDecoded (EntryList.upsert_nodup _ _ hNodup)
    rw [hText, hRead, Option.some.injEq]
    apply SortedMap.ext_find
    intro k
    apply Option.ext
    intro v
    rw [hFind', find_insert_iff hFind]

theorem readsBack_of_updated (hP : P.Lawful) (hV : P.Verbatim) (h : RawPairs P t p values)
    {name value : Str} {lost : Nat} (hUpdated : Updated P t (t.write p
      ((writeValues (P.encodeParam name) (P.encodeParam value) values).rdrop lost)) p name value) :
    lost ≤ 1 ∧ P.ReadsBack (name, value) := by
  obtain ⟨values', text, h', hText, hRead, _⟩ := hUpdated
  obtain rfl := h.unique h'
  rw [FileTree.content_write_self, Option.some.injEq] at hText
  subst hText
  rw [writeValues_eq] at hRead
  have hSelf : (P.encodeParam name, P.encodeParam value) ∈
      EntryList.upsert (P.encodeParam name) (P.encodeParam value) values'.entries :=
    EntryList.mem_upsert_self.mpr rfl
  have hFind := find_insert_iff (fun k v => values'.find_eq_some_iff) (P.encodeParam name)
    (P.encodeParam value)
  have hLost := lost_le_of_read hP hV (List.ne_nil_of_mem hSelf)
    (EntryList.upsert_nodup _ _ values'.keys_nodup) hRead fun e he => (hFind e.1 e.2).mpr he
  refine ⟨hLost, ?_⟩
  obtain ⟨ps, hOrdered, hMem⟩ := exists_raw_of_readKv hP hRead
  have hOrdered' := (read_rdrop hP _ hLost false).symm.trans hOrdered
  have hLines : ∀ e ∈ EntryList.upsert (P.encodeParam name) (P.encodeParam value) values'.entries,
      '\n' ∉ e.1 ∧ '\n' ∉ e.2 := by
    intro e he
    obtain rfl | ⟨_, hOld⟩ := EntryList.mem_upsert_cases he
    · exact ⟨hP.encode_newline name, hP.encode_newline value⟩
    · obtain ⟨hKey, hValue, _⟩ := h.read_again hP hV hOld
      exact ⟨hKey, hValue⟩
  -- the pair that is found under the name comes from the one line with that name
  obtain ⟨e, he, line, hLine, hPair⟩ := exists_line_of_mem hP hLines hOrdered'
    (hMem _ (SortedMap.find_eq_some_iff.mp ((hFind _ _).mpr hSelf)))
  obtain rfl | ⟨hk, hFound⟩ := EntryList.mem_upsert_cases he
  · have hNewline : '\n' ∉ P.encodeParam name ++ '=' :: P.encodeParam value :=
      ProtoUtils.newline_not_mem_pair (hP.encode_newline name) (hP.encode_newline value)
    rw [ProtoUtils.rawLine_eq] at hLine
    obtain rfl | ⟨k', v', rfl, _⟩ := hP.read_halves _ line hNewline hLine
    · cases hPair
    · rw [ProtoUtils.ReadsBack, ProtoUtils.encodedLine, ProtoUtils.rawLine_eq, hLine,
        List.mem_singleton.mp hPair]
  · obtain ⟨_, _, hOld⟩ := h.read_again hP hV hFound
    obtain rfl := Option.some.inj (hOld.symm.trans hLine)
    exact absurd (congrArg Prod.fst (List.mem_singleton.mp hPair)).symm hk

theorem updated_iff (hP : P.Lawful) (hV : P.Verbatim) (h : RawPairs P t p values)
    {name value : Str} {lost : Nat} : Updated P t (t.write p
      ((writeValues (P.encodeParam name) (P.encodeParam value) values).rdrop lost)) p name value ↔
    lost ≤ 1 ∧ P.ReadsBack (name, value) := by
  constructor
  · exact readsBack_of_updated hP hV h
  · rintro ⟨hLost, hPair⟩
    exact updated_of_readsBack hP hV h hPair hLost

end Pairs

theorem readKvFile_cases (P : ProtoUtils) (os : Os) (t : FileTree) (p : FsPath) (e : ErrorCode) :
    (os.existsFault p = none ∧ t.pathExists p = true ∧
      (os.openIfstream t p).bind (P.readIstreamKvStr · false) = none ∧
      readKvFile P os t p false e = (none, fail e)) ∨
    (os.existsFault p = none ∧ ∃ values, readKvFile P os t p false e = (some values, none) ∧
      (t.pathExists p = true → (os.openIfstream t p).bind (P.readIstreamKvStr · false) = some values) ∧
      (t.pathExists p = false → values = ∅)) ∨
    ∃ err, os.existsFault p = some err ∧
      readKvFile P os t p false e = (some ∅, some (.system err)) := by
  rw [readKvFile, Os.pathExists]
  cases hFault : os.existsFault p with
  | some err => exact Or.inr (Or.inr ⟨err, rfl, rfl⟩)
  | none =>
    cases hFound : t.pathExists p with
    | false => exact Or.inr (Or.inl ⟨rfl, ∅, rfl, by simp, fun _ => rfl⟩)
    | true =>
      cases hText : os.openIfstream t p with
      | none => exact Or.inl ⟨rfl, rfl, rfl, rfl⟩
      | some text =>
        cases hRead : P.readIstreamKvStr text false with
        | none => exact Or.inl ⟨rfl, rfl, hRead, by simp [hRead]⟩
        | some values => exact Or.inr (Or.inl ⟨rfl, values, by simp [hRead], fun _ => hRead, by simp⟩)

/-- A file that can be rewritten holds the pairs that were read from it. -/
theorem rawPairs_of_read {os : Os} {t : FileTree} {p : FsPath} {values : SortedMap Str Str}
    (hOpen : (os.openOfstream t p).isSome)
    (hRead : t.pathExists p = true → (os.openIfstream t p).bind (P.readIstreamKvStr · false) = some values)
    (hEmpty : t.pathExists p = false → values = ∅) : RawPairs P t p values := by
  obtain ⟨_, hFile | ⟨hAbsent, _⟩⟩ := Os.openOfstream_isSome_iff.mp hOpen
  · obtain ⟨text, hText, hValues⟩ := Option.bind_eq_some_iff.mp
      (hRead (FileTree.pathExists_of_content hFile))
    obtain ⟨content, hContent⟩ := Option.isSome_iff_exists.mp hFile
    have hSame := Os.openIfstream_text hText
    rw [hContent, Option.getD_some] at hSame
    exact Or.inr ⟨content, hContent, hSame ▸ hValues⟩
  · exact Or.inl ⟨FileTree.find_eq_none (by rw [hAbsent]; simp), hEmpty hAbsent⟩

end CisCore
