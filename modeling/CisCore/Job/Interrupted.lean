import CisCore.Job.Cleanup

/-! # Cleanup that is interrupted

A cleanup ends at the first removal that fails. By then the maps of the job and
the directories have lost the same builds, the oldest ones. What the failing
removal has left of its own build decides what a later cleanup can do about it.
-/

namespace CisCore

variable {P : ProtoUtils} {os : Os}

/-- No directory of a build lies in the directory of another one. -/
def Job.Apart (job : Job) : Prop :=
  ∀ s n p s' n' p', (job.builds.get s).find n = some p → (job.builds.get s').find n' = some p' →
    p <:+ p' → s = s' ∧ n = n'

theorem loadJob_apart {t : FileTree} {ctx : Context} {jobName : Str} {job : Job}
    (h : loadJob P os t ctx jobName = .ok job) : job.Apart := by
  obtain ⟨_, _, _, _, _, _, _, _, hBuilds⟩ := loadJob_eq_ok h
  intro s n p s' n' p' hFind hFind' hBelow
  rw [hBuilds, find_loadBuilds] at hFind hFind'
  obtain ⟨_, rfl, _, hStatus⟩ := hFind
  obtain ⟨_, rfl, _, hStatus'⟩ := hFind'
  obtain rfl := eq_of_buildDir_suffix hBelow
  exact ⟨hStatus.symm.trans hStatus', rfl⟩

/-! ### The two loops up to the first error -/

theorem eraseOldest_faultless {count : Nat} {builds : SortedMap Nat FsPath}
    (h : ∀ dir ∈ (builds.entries.take count).map Prod.snd, os.removeAllFault dir = none)
    (t : FileTree) :
    eraseOldest os count t builds =
      (((builds.entries.take count).map Prod.snd).foldl FileTree.removeAll t,
        builds.dropLeast count, none) := by
  induction count generalizing t builds with
  | zero => rfl
  | succ count ih =>
    rw [eraseOldest]
    cases hEntries : builds.entries with
    | nil =>
      have hEmpty : builds.dropLeast (count + 1) = builds := by
        apply SortedMap.entries_injective
        rw [SortedMap.entries_dropLeast, hEntries, List.drop_nil]
      rw [hEmpty]
      rfl
    | cons entry entries =>
      have hRest := SortedMap.entries_dropLeast_one hEntries
      rw [hEntries, List.take_succ_cons, List.map_cons] at h
      simp only [List.head?_cons, Os.removeAll, h entry.2 List.mem_cons_self]
      rw [ih, SortedMap.dropLeast_dropLeast, hRest, Nat.add_comm 1 count]
      · rfl
      · rw [hRest]
        exact fun dir hDir => h dir (List.mem_cons_of_mem _ hDir)

theorem eraseOldest_fault {count : Nat} {builds : SortedMap Nat FsPath} {before after : List FsPath}
    {dir : FsPath} {e : Errno} {survives : FsPath → Bool}
    (hDirs : (builds.entries.take count).map Prod.snd = before ++ dir :: after)
    (hBefore : ∀ d ∈ before, os.removeAllFault d = none)
    (hFault : os.removeAllFault dir = some (e, survives)) (t : FileTree) :
    eraseOldest os count t builds =
      ((os.removeAll (before.foldl FileTree.removeAll t) dir).1,
        builds.dropLeast before.length, some (.system e)) := by
  induction count generalizing t builds before with
  | zero => simp at hDirs
  | succ count ih =>
    rw [eraseOldest]
    cases hEntries : builds.entries with
    | nil => simp [hEntries] at hDirs
    | cons entry entries =>
      have hRest := SortedMap.entries_dropLeast_one hEntries
      rw [hEntries, List.take_succ_cons, List.map_cons] at hDirs
      cases before with
      | nil =>
        rw [List.nil_append, List.cons.injEq] at hDirs
        simp only [List.head?_cons, Os.removeAll, hDirs.1, hFault]
        rfl
      | cons first before =>
        rw [List.cons_append, List.cons.injEq] at hDirs
        simp only [List.head?_cons, Os.removeAll, hDirs.1, hBefore first List.mem_cons_self]
        rw [ih (by rw [hRest]; exact hDirs.2) (fun d hd => hBefore d (List.mem_cons_of_mem _ hd)),
          SortedMap.dropLeast_dropLeast, List.length_cons, Nat.add_comm 1]
        rfl

def Job.withoutOldest (job : Job) (successful broken : Nat) : Job :=
  { job with builds := ⟨job.builds.successful.dropLeast successful,
      job.builds.broken.dropLeast broken, job.builds.pending⟩ }

theorem eraseOldest_dropLeast (os : Os) (count : Nat) (t : FileTree) (builds : SortedMap Nat FsPath) :
    ∃ k, (eraseOldest os count t builds).2.1 = builds.dropLeast k := by
  induction count generalizing t builds with
  | zero => exact ⟨0, rfl⟩
  | succ count ih =>
    rw [eraseOldest]
    cases builds.entries.head? with
    | none => exact ⟨0, rfl⟩
    | some entry =>
      rcases hRemove : os.removeAll t entry.2 with ⟨t', _ | e⟩
      · obtain ⟨k, hk⟩ := ih t' (builds.dropLeast 1)
        simp only [hRemove]
        exact ⟨1 + k, by rw [hk, SortedMap.dropLeast_dropLeast]⟩
      · simp only [hRemove]
        exact ⟨0, rfl⟩

/-- Whatever fails, the job has lost its oldest builds and nothing else. -/
theorem cleanup_withoutOldest (os : Os) (job : Job) (t : FileTree) :
    ∃ successful broken, (job.cleanup os t).2.1 = job.withoutOldest successful broken := by
  obtain ⟨name, config, ⟨successful, broken, pending⟩⟩ := job
  simp only [Job.cleanup]
  obtain ⟨k, hk⟩ := eraseOldest_dropLeast os
    (buildsToErase successful.size config.keepSuccessfulBuilds) t successful
  rcases hErase : eraseOldest os (buildsToErase successful.size config.keepSuccessfulBuilds) t
    successful with ⟨t', successful', _ | e⟩
  · rw [hErase] at hk
    obtain ⟨l, hl⟩ := eraseOldest_dropLeast os
      (buildsToErase broken.size config.keepBrokenBuilds) t' broken
    refine ⟨k, l, ?_⟩
    simp only at hk
    rw [hk]
    simp only [hl]
    rfl
  · rw [hErase] at hk
    refine ⟨k, 0, ?_⟩
    simp only at hk
    rw [hk]
    rfl

theorem length_outdated (builds : SortedMap Nat FsPath) (keep : Nat) :
    (outdated builds keep).length = builds.size - keep := by
  rw [outdated, List.length_map, List.length_take, Nat.min_eq_left]
  exact Nat.sub_le _ _

theorem cleanup_faultless {job : Job} (h : ∀ dir ∈ job.outdated, os.removeAllFault dir = none)
    (t : FileTree) :
    job.cleanup os t = (job.outdated.foldl FileTree.removeAll t,
      job.withoutOldest (job.builds.successful.size - job.config.keepSuccessfulBuilds)
        (job.builds.broken.size - job.config.keepBrokenBuilds), none) := by
  obtain ⟨name, config, ⟨successful, broken, pending⟩⟩ := job
  simp only [Job.outdated, List.forall_mem_append] at h
  have hSuccessful := eraseOldest_faultless h.1 t
  have hBroken := eraseOldest_faultless h.2
    ((outdated successful config.keepSuccessfulBuilds).foldl FileTree.removeAll t)
  simp only [Job.cleanup, buildsToErase_eq, hSuccessful, Job.outdated, List.foldl_append]
  rw [← outdated, hBroken]
  rfl

theorem cleanup_fault {job : Job} {before after : List FsPath} {dir : FsPath} {e : Errno}
    {survives : FsPath → Bool} (hDirs : job.outdated = before ++ dir :: after)
    (hBefore : ∀ d ∈ before, os.removeAllFault d = none)
    (hFault : os.removeAllFault dir = some (e, survives)) (t : FileTree) :
    job.cleanup os t = ((os.removeAll (before.foldl FileTree.removeAll t) dir).1,
      job.withoutOldest
        (min before.length (job.builds.successful.size - job.config.keepSuccessfulBuilds))
        (before.length - (job.builds.successful.size - job.config.keepSuccessfulBuilds)),
      some (.system e)) := by
  obtain ⟨name, config, ⟨successful, broken, pending⟩⟩ := job
  simp only [Job.outdated] at hDirs
  have hLength := length_outdated successful config.keepSuccessfulBuilds
  obtain ⟨rest, rfl, hRest⟩ | ⟨rest, hSuccessful, hRest⟩ := List.append_eq_append_iff.mp hDirs
  · -- all successful builds that are outdated have been removed before
    have hErased := eraseOldest_faultless (List.forall_mem_append.mp hBefore).1 t
    have hBroken := eraseOldest_fault hRest (List.forall_mem_append.mp hBefore).2 hFault
      ((outdated successful config.keepSuccessfulBuilds).foldl FileTree.removeAll t)
    simp only [Job.cleanup, buildsToErase_eq, hErased]
    rw [← outdated, hBroken, List.foldl_append, List.length_append, hLength,
      Nat.min_eq_right (Nat.le_add_right _ _), Nat.add_sub_cancel_left]
    rfl
  · cases rest with
    | nil =>
      rw [List.append_nil] at hSuccessful
      subst hSuccessful
      have hErased := eraseOldest_faultless hBefore t
      have hHead : outdated broken config.keepBrokenBuilds = [] ++ dir :: after := hRest.symm
      have hBroken := eraseOldest_fault hHead (List.forall_mem_nil _) hFault
        ((outdated successful config.keepSuccessfulBuilds).foldl FileTree.removeAll t)
      simp only [Job.cleanup, buildsToErase_eq, hErased]
      rw [← outdated, hBroken, hLength, Nat.min_self, Nat.sub_self]
      rfl
    | cons first rest =>
      rw [List.cons_append, List.cons.injEq] at hRest
      obtain ⟨rfl, _⟩ := hRest
      have hErased := eraseOldest_fault hSuccessful hBefore hFault t
      have hShort : before.length ≤ successful.size - config.keepSuccessfulBuilds := by
        rw [← hLength, hSuccessful, List.length_append]
        exact Nat.le_add_right _ _
      simp only [Job.cleanup, buildsToErase_eq, hErased]
      rw [Nat.min_eq_left hShort, Nat.sub_eq_zero_of_le hShort]
      rfl

/-! ### Maps and directories lose the same builds -/

def Job.oldest (job : Job) (successful broken : Nat) : List FsPath :=
  (job.builds.successful.entries.take successful).map Prod.snd ++
    (job.builds.broken.entries.take broken).map Prod.snd

theorem Job.outdated_eq_oldest (job : Job) :
    job.outdated = job.oldest (job.builds.successful.size - job.config.keepSuccessfulBuilds)
      (job.builds.broken.size - job.config.keepBrokenBuilds) := rfl

theorem exists_of_mem_oldest {job : Job} {successful broken : Nat} {dir : FsPath}
    (h : dir ∈ job.oldest successful broken) : ∃ s n, (job.builds.get s).find n = some dir := by
  obtain hMem | hMem := List.mem_append.mp h
  · obtain ⟨⟨n, _⟩, hTake, rfl⟩ := List.mem_map.mp hMem
    exact ⟨.successful, n, SortedMap.find_eq_some_iff.mpr (List.mem_of_mem_take hTake)⟩
  · obtain ⟨⟨n, _⟩, hTake, rfl⟩ := List.mem_map.mp hMem
    exact ⟨.broken, n, SortedMap.find_eq_some_iff.mpr (List.mem_of_mem_take hTake)⟩

theorem eq_oldest_of_prefix {job : Job} {before : List FsPath} (h : before <+: job.outdated) :
    before = job.oldest
      (min before.length (job.builds.successful.size - job.config.keepSuccessfulBuilds))
      (before.length - (job.builds.successful.size - job.config.keepSuccessfulBuilds)) := by
  have hTake := List.prefix_iff_eq_take.mp h
  have hBroken : before.length - (job.builds.successful.size - job.config.keepSuccessfulBuilds) ≤
      job.builds.broken.size - job.config.keepBrokenBuilds := by
    have hLength := h.length_le
    rw [Job.outdated, List.length_append, length_outdated, length_outdated] at hLength
    omega
  rw [Job.outdated, List.take_append, length_outdated] at hTake
  unfold outdated at hTake
  rw [← List.map_take, ← List.map_take, List.take_take, List.take_take,
    Nat.min_eq_left hBroken] at hTake
  exact hTake

namespace Job.Apart

variable {job : Job} (h : job.Apart)
include h

theorem mem_take_iff {s : BuildStatus} {n : Nat} {p : FsPath}
    (hFind : (job.builds.get s).find n = some p) (s' : BuildStatus) (count : Nat) :
    p ∈ ((job.builds.get s').entries.take count).map Prod.snd ↔
      s' = s ∧ (n, p) ∈ (job.builds.get s).entries.take count := by
  rw [List.mem_map]
  constructor
  · rintro ⟨⟨n', p'⟩, hTake, rfl⟩
    have hFind' := SortedMap.find_eq_some_iff.mpr (List.mem_of_mem_take hTake)
    obtain ⟨rfl, rfl⟩ := h _ _ _ _ _ _ hFind' hFind List.suffix_rfl
    exact ⟨rfl, hTake⟩
  · rintro ⟨rfl, hTake⟩
    exact ⟨_, hTake, rfl⟩

theorem mem_oldest_iff {s : BuildStatus} {n : Nat} {p : FsPath}
    (hFind : (job.builds.get s).find n = some p) (successful broken : Nat) :
    p ∈ job.oldest successful broken ↔
      (s = .successful ∧ (n, p) ∈ job.builds.successful.entries.take successful) ∨
      (s = .broken ∧ (n, p) ∈ job.builds.broken.entries.take broken) := by
  have hSuccessful := h.mem_take_iff hFind .successful successful
  have hBroken := h.mem_take_iff hFind .broken broken
  simp only [Builds.get] at hSuccessful hBroken
  rw [Job.oldest, List.mem_append, hSuccessful, hBroken]
  cases s <;> simp

/-- The entries that leave the maps are those of the directories. -/
theorem find_withoutOldest {s : BuildStatus} {n : Nat} {p : FsPath} (successful broken : Nat) :
    ((job.withoutOldest successful broken).builds.get s).find n = some p ↔
      (job.builds.get s).find n = some p ∧ p ∉ job.oldest successful broken := by
  have hOld : ((job.withoutOldest successful broken).builds.get s).find n = some p ↔
      (job.builds.get s).find n = some p ∧
        ¬((s = .successful ∧ (n, p) ∈ job.builds.successful.entries.take successful) ∨
          (s = .broken ∧ (n, p) ∈ job.builds.broken.entries.take broken)) := by
    cases s <;> simp [Job.withoutOldest, Builds.get, SortedMap.find_dropLeast]
  rw [hOld]
  constructor
  · rintro ⟨hFind, hKept⟩
    exact ⟨hFind, fun hMem => hKept ((h.mem_oldest_iff hFind _ _).mp hMem)⟩
  · rintro ⟨hFind, hKept⟩
    exact ⟨hFind, fun hMem => hKept ((h.mem_oldest_iff hFind _ _).mpr hMem)⟩

/-- A directory that a loop removes is not above that of another build. -/
theorem eq_of_mem_oldest {s : BuildStatus} {n : Nat} {p dir : FsPath} {successful broken : Nat}
    (hFind : (job.builds.get s).find n = some p) (hMem : dir ∈ job.oldest successful broken)
    (hBelow : dir <:+ p) : dir = p := by
  obtain ⟨s', n', hDir⟩ := exists_of_mem_oldest hMem
  obtain ⟨rfl, rfl⟩ := h _ _ _ _ _ _ hDir hFind hBelow
  exact Option.some.inj (hDir.symm.trans hFind)

/-- They are older than the entries of their kind that stay. -/
theorem lt_of_mem_oldest {s : BuildStatus} {n m : Nat} {p p' : FsPath} {successful broken : Nat}
    (hFind : (job.builds.get s).find n = some p) (hMem : p ∈ job.oldest successful broken)
    (hStays : ((job.withoutOldest successful broken).builds.get s).find m = some p') : n < m := by
  obtain ⟨rfl, hTake⟩ | ⟨rfl, hTake⟩ := (h.mem_oldest_iff hFind _ _).mp hMem
  · exact SortedMap.lt_of_mem_take_drop hTake (SortedMap.find_eq_some_iff.mp hStays)
  · exact SortedMap.lt_of_mem_take_drop hTake (SortedMap.find_eq_some_iff.mp hStays)

end Job.Apart

theorem outdated_nodup {job : Job} (h : job.Apart) : job.outdated.Nodup := by
  have hKind : ∀ s keep, (outdated (job.builds.get s) keep).Nodup := by
    intro s keep
    have hEntries : ((job.builds.get s).entries.take ((job.builds.get s).size - keep)).Nodup :=
      (List.Nodup.of_map _ (job.builds.get s).keys_nodup).sublist (List.take_sublist _ _)
    refine hEntries.map_on ?_
    rintro ⟨n, p⟩ hn ⟨n', p'⟩ hn' rfl
    have hFind := SortedMap.find_eq_some_iff.mpr (List.mem_of_mem_take hn)
    have hFind' := SortedMap.find_eq_some_iff.mpr (List.mem_of_mem_take hn')
    obtain ⟨_, rfl⟩ := h _ _ _ _ _ _ hFind hFind' List.suffix_rfl
    rfl
  refine List.nodup_append.mpr ⟨hKind .successful _, hKind .broken _, ?_⟩
  rintro p hp _ hp' rfl
  obtain ⟨n, hFind, _⟩ := mem_outdated_iff.mp hp
  obtain ⟨n', hFind', _⟩ := mem_outdated_iff.mp hp'
  obtain ⟨hStatus, _⟩ := h .successful n p .broken n' p hFind hFind' List.suffix_rfl
  cases hStatus

/-- The new map holds the `keep` entries of the old one with the largest numbers. -/
structure KeepsLargest (keep : Nat) (old new : SortedMap Nat FsPath) : Prop where
  size : new.size = min old.size keep
  find : ∀ n p, new.find n = some p ↔
    old.find n = some p ∧ (old.keys.filter fun m => n < m).length < keep

theorem keepsLargest_dropLeast (keep : Nat) (m : SortedMap Nat FsPath) :
    KeepsLargest keep m (m.dropLeast (m.size - keep)) where
  size := by
    rw [SortedMap.size_dropLeast]
    omega
  find n p := by
    rw [SortedMap.find_dropLeast, SortedMap.mem_take_entries_iff, ← SortedMap.find_eq_some_iff]
    constructor
    · rintro ⟨hFind, hKept⟩
      exact ⟨hFind, not_le.mp fun hLe => hKept ⟨hFind, hLe⟩⟩
    · rintro ⟨hFind, hLess⟩
      exact ⟨hFind, fun hOld => absurd hOld.2 (not_le.mpr hLess)⟩

/-- The build is no longer in its map. -/
def Job.Dropped (job job' : Job) (dir : FsPath) : Prop :=
  ∃ s n, (job.builds.get s).find n = some dir ∧ (job'.builds.get s).find n = none

theorem dropped_withoutOldest_iff {job : Job} (h : job.Apart) {successful broken : Nat}
    {dir : FsPath} :
    job.Dropped (job.withoutOldest successful broken) dir ↔ dir ∈ job.oldest successful broken := by
  constructor
  · rintro ⟨s, n, hFind, hNone⟩
    by_contra hKept
    rw [(h.find_withoutOldest successful broken).mpr ⟨hFind, hKept⟩] at hNone
    cases hNone
  · intro hMem
    obtain ⟨s, n, hFind⟩ := exists_of_mem_oldest hMem
    refine ⟨s, n, hFind, Option.eq_none_iff_forall_ne_some.mpr fun p hp => ?_⟩
    obtain ⟨hOld, hKept⟩ := (h.find_withoutOldest successful broken).mp hp
    rw [hFind, Option.some.injEq] at hOld
    exact hKept (hOld ▸ hMem)

theorem find_removeAll_fault {dir : FsPath} {e : Errno} {survives : FsPath → Bool}
    (hFault : os.removeAllFault dir = some (e, survives)) (t : FileTree) (q : FsPath) :
    (os.removeAll t dir).1.find q =
      if dir <:+ q ∧ survives q = false then none else t.find q := by
  simp only [Os.removeAll, hFault, SortedMap.find_filterKeys]
  by_cases hBelow : dir <:+ q
  · cases survives q <;> simp [hBelow]
  · simp [hBelow]

theorem not_dropped_pending {job : Job} (h : job.Apart) {n : Nat} {dir : FsPath}
    (hPending : job.builds.pending.find n = some dir) (successful broken : Nat) :
    dir ∉ job.oldest successful broken := by
  intro hMem
  obtain ⟨hStatus, _⟩ | ⟨hStatus, _⟩ :=
    (h.mem_oldest_iff (s := .pending) hPending successful broken).mp hMem
  · cases hStatus
  · cases hStatus

theorem find_foldl_removeAll_apart {job : Job} (h : job.Apart) {dirs : List FsPath}
    (hDirs : dirs ⊆ job.outdated) {n : Nat} {dir : FsPath}
    (hPending : job.builds.pending.find n = some dir) {q : FsPath} (hBelow : dir <:+ q) :
    ¬∃ d ∈ dirs, d <:+ q := by
  rintro ⟨d, hd, hq⟩
  have hMem := hDirs hd
  rw [job.outdated_eq_oldest] at hMem
  obtain hLe | hLe := List.suffix_or_suffix_of_suffix hq hBelow
  · have hSame := h.eq_of_mem_oldest (s := .pending) hPending hMem hLe
    exact not_dropped_pending h hPending _ _ (hSame ▸ hMem)
  · obtain ⟨s, m, hFind⟩ := exists_of_mem_oldest hMem
    obtain ⟨rfl, rfl⟩ := h .pending n dir s m d hPending hFind hLe
    rw [Builds.get, hPending, Option.some.injEq] at hFind
    exact not_dropped_pending h hPending _ _ (hFind ▸ hMem)

/-- A cleanup without an error removes what is outdated and nothing else. One
that fails has removed the oldest builds, from the maps and from the disk, and at
most some files of the build at which it failed. -/
theorem cleanup_removes_outdated {job : Job} (hApart : job.Apart) (os : Os) (t : FileTree) :
    ((∀ dir ∈ job.outdated, os.removeAllFault dir = none) →
      (job.cleanup os t).2.2 = none ∧
      KeepsLargest job.config.keepSuccessfulBuilds job.builds.successful
        (job.cleanup os t).2.1.builds.successful ∧
      KeepsLargest job.config.keepBrokenBuilds job.builds.broken
        (job.cleanup os t).2.1.builds.broken ∧
      (job.cleanup os t).2.1.builds.pending = job.builds.pending ∧
      (∀ q, (∃ dir, job.Dropped (job.cleanup os t).2.1 dir ∧ dir <:+ q) →
        (job.cleanup os t).1.find q = none) ∧
      (∀ q, (¬∃ dir, job.Dropped (job.cleanup os t).2.1 dir ∧ dir <:+ q) →
        (job.cleanup os t).1.find q = t.find q) ∧
      ∀ n dir, job.builds.pending.find n = some dir → ∀ q, dir <:+ q →
        (job.cleanup os t).1.find q = t.find q) ∧
    ∀ before dir after e survives, job.outdated = before ++ dir :: after →
      (∀ d ∈ before, os.removeAllFault d = none) →
      os.removeAllFault dir = some (e, survives) →
      (job.cleanup os t).2.2 = some (.system e) ∧
      (∀ s n p, ((job.cleanup os t).2.1.builds.get s).find n = some p ↔
        (job.builds.get s).find n = some p ∧ p ∉ before) ∧
      (∀ d, job.Dropped (job.cleanup os t).2.1 d ↔ d ∈ before) ∧
      (∀ s n p m p', (job.builds.get s).find n = some p → p ∈ before →
        ((job.cleanup os t).2.1.builds.get s).find m = some p' → n < m) ∧
      (∀ q, (∃ d ∈ before, d <:+ q) → (job.cleanup os t).1.find q = none) ∧
      (∀ q, (¬∃ d ∈ before, d <:+ q) → ¬dir <:+ q → (job.cleanup os t).1.find q = t.find q) ∧
      ∀ q, (¬∃ d ∈ before, d <:+ q) → dir <:+ q →
        (job.cleanup os t).1.find q = if survives q then t.find q else none := by
  constructor
  · intro hFaults
    rw [cleanup_faultless hFaults]
    simp only [dropped_withoutOldest_iff hApart, ← job.outdated_eq_oldest, find_foldl_removeAll]
    refine ⟨trivial, keepsLargest_dropLeast _ _, keepsLargest_dropLeast _ _, rfl,
      fun q hq => if_pos hq, fun q hq => if_neg hq, ?_⟩
    intro n dir hPending q hBelow
    exact if_neg (find_foldl_removeAll_apart hApart (fun _ hd => hd) hPending hBelow)
  · intro before dir after e survives hDirs hBefore hFault
    have hOldest := eq_oldest_of_prefix (hDirs ▸ List.prefix_append before (dir :: after))
    rw [cleanup_fault hDirs hBefore hFault]
    simp only [hApart.find_withoutOldest, dropped_withoutOldest_iff hApart, ← hOldest,
      find_removeAll_fault hFault, find_foldl_removeAll]
    refine ⟨trivial, fun _ _ _ => trivial, fun _ => trivial, ?_, ?_, ?_, ?_⟩
    · intro s n p m p' hFind hMem hStays
      rw [hOldest] at hMem hStays
      exact hApart.lt_of_mem_oldest hFind hMem (hApart.find_withoutOldest _ _ |>.mpr hStays)
    · intro q hq
      rw [if_pos hq, ite_self]
    · intro q hq hOutside
      rw [if_neg hq, if_neg fun h => hOutside h.1]
    · intro q hq hBelow
      rw [if_neg hq]
      cases survives q <;> simp [hBelow]

/-- The job `j` keeps no builds and has a successful one. -/
def finishedTree : FileTree :=
  demoTree "0" [(jobPath demoContext "j" / "000000", .directory),
    (jobPath demoContext "j" / "000000" / "exitcode.txt", .file (exitcodeText 0) false)]

def interruptedOs (survives : FsPath → Bool) : Os :=
  { Os.ideal ∅ with removeAllFault := fun _ => some (.other 5, survives) }

/-- The job `j` keeps no builds; it has a successful one with output and a broken one. -/
def twoFinishedTree : FileTree :=
  demoTree "0" [(jobPath demoContext "j" / "000000", .directory),
    (jobPath demoContext "j" / "000000" / "exitcode.txt", .file (exitcodeText 0) false),
    (jobPath demoContext "j" / "000000" / "output.txt", .file "hello" false),
    (jobPath demoContext "j" / "000001", .directory),
    (jobPath demoContext "j" / "000001" / "exitcode.txt", .file (exitcodeText 3) false)]

/-- The removal of one directory fails and leaves the paths that survive it. -/
def failingAt (dir : FsPath) (survives : FsPath → Bool) : Os :=
  { Os.ideal ∅ with removeAllFault := fun d => if d = dir then some (.other 5, survives) else none }

def twoFinishedJob : Job :=
  ⟨"j", ⟨"s", 0, 0, []⟩, loadBuilds (.ideal ∅) twoFinishedTree (jobPath demoContext "j")⟩

def stuckAtBroken : Os :=
  failingAt (jobPath demoContext "j" / "000001") fun q => q = jobPath demoContext "j" / "000001"

/-- The successful build is removed; the removal of the broken one takes its exit code away
and fails. -/
theorem cleanup_removes_outdated_two :
    loadJob .reference (.ideal ∅) twoFinishedTree demoContext "j" = .ok twoFinishedJob ∧
      (twoFinishedJob.cleanup (.ideal ∅) twoFinishedTree).2.2 = none ∧
      (twoFinishedJob.cleanup stuckAtBroken twoFinishedTree).2.2 = some (.system (.other 5)) ∧
      (∀ d, twoFinishedJob.Dropped (twoFinishedJob.cleanup stuckAtBroken twoFinishedTree).2.1 d ↔
        d ∈ [jobPath demoContext "j" / "000000"]) ∧
      (twoFinishedJob.cleanup stuckAtBroken twoFinishedTree).1.find
        (jobPath demoContext "j" / "000000" / "output.txt") = none ∧
      (twoFinishedJob.cleanup stuckAtBroken twoFinishedTree).1.find
        (jobPath demoContext "j" / "000001" / "exitcode.txt") = none := by
  have hLoad : loadJob .reference (.ideal ∅) twoFinishedTree demoContext "j" = .ok twoFinishedJob :=
    rfl
  obtain ⟨hClear, _⟩ := (cleanup_removes_outdated (loadJob_apart hLoad) (.ideal ∅)
    twoFinishedTree).1 fun _ _ => rfl
  obtain ⟨hError, _, hDropped, _, hBefore, _, hAt⟩ := (cleanup_removes_outdated (loadJob_apart hLoad)
    stuckAtBroken twoFinishedTree).2 [jobPath demoContext "j" / "000000"]
    (jobPath demoContext "j" / "000001") [] (.other 5)
    (fun q => q = jobPath demoContext "j" / "000001") rfl (List.forall_mem_singleton.mpr rfl) rfl
  refine ⟨hLoad, hClear, hError, hDropped, hBefore _ ⟨_, List.mem_singleton_self _, ?_⟩, ?_⟩
  · exact FileTree.suffix_child _ "output.txt".toList
  · exact (hAt _ (by decide) (FileTree.suffix_child _ "exitcode.txt".toList)).trans
      (if_neg (by decide))

/-- The removal that fails takes a file with it, though no entry leaves the maps. -/
theorem cleanup_removes_more :
    ∃ job, loadJob .reference (.ideal ∅) finishedTree demoContext "j" = .ok job ∧
      job.outdated = [jobPath demoContext "j" / "000000"] ∧
      (job.cleanup (interruptedOs fun q => q = jobPath demoContext "j" / "000000")
        finishedTree).2 = (job, some (.system (.other 5))) ∧
      finishedTree.pathExists (jobPath demoContext "j" / "000000" / "exitcode.txt") = true ∧
      (job.cleanup (interruptedOs fun q => q = jobPath demoContext "j" / "000000")
        finishedTree).1.pathExists (jobPath demoContext "j" / "000000" / "exitcode.txt") = false :=
  ⟨_, rfl, rfl, rfl, rfl, rfl⟩

/-! ### The next cleanup -/

theorem outdated_dropLeast (k : Nat) (builds : SortedMap Nat FsPath) (keep : Nat) :
    outdated (builds.dropLeast k) keep = (outdated builds keep).drop k := by
  rw [outdated, outdated, SortedMap.entries_dropLeast, SortedMap.size_dropLeast, ← List.map_drop,
    List.drop_take, Nat.sub_right_comm]

/-- What the next cleanup finds outdated is what the interrupted one has left. -/
theorem outdated_withoutOldest {job : Job} {before rest : List FsPath}
    (hDirs : job.outdated = before ++ rest) :
    (job.withoutOldest
      (min before.length (job.builds.successful.size - job.config.keepSuccessfulBuilds))
      (before.length - (job.builds.successful.size - job.config.keepSuccessfulBuilds))).outdated =
      rest := by
  have hRest : job.outdated.drop before.length = rest := by
    rw [hDirs, List.drop_left]
  have hLength := length_outdated job.builds.successful job.config.keepSuccessfulBuilds
  rw [Job.outdated, List.drop_append, hLength] at hRest
  rw [Job.outdated, Job.withoutOldest]
  simp only [outdated_dropLeast]
  rw [← hRest, ← hLength]
  congr 1
  rcases Nat.le_total before.length
    (outdated job.builds.successful job.config.keepSuccessfulBuilds).length with hLe | hLe
  · rw [Nat.min_eq_left hLe]
  · rw [Nat.min_eq_right hLe, List.drop_length, List.drop_eq_nil_of_le hLe]

theorem interrupted_find {job : Job} {before after : List FsPath} {dir : FsPath} {e : Errno}
    {survives : FsPath → Bool} (hDirs : job.outdated = before ++ dir :: after)
    (hBefore : ∀ d ∈ before, os.removeAllFault d = none)
    (hFault : os.removeAllFault dir = some (e, survives)) (t : FileTree) (q : FsPath) :
    (job.cleanup os t).1.find q =
      if (∃ d ∈ before, d <:+ q) ∨ (dir <:+ q ∧ survives q = false) then none else t.find q := by
  rw [cleanup_fault hDirs hBefore hFault, find_removeAll_fault hFault, find_foldl_removeAll]
  by_cases hBelow : dir <:+ q ∧ survives q = false
  · rw [if_pos hBelow, if_pos (Or.inr hBelow)]
  · rw [if_neg hBelow]
    by_cases hq : ∃ d ∈ before, d <:+ q
    · rw [if_pos hq, if_pos (Or.inl hq)]
    · rw [if_neg hq, if_neg (by rintro (h | h); exacts [hq h, hBelow h])]

section Repair

variable {os' : Os} {t : FileTree} {ctx : Context} {jobName : Str} {job : Job}
  (hLoad : loadJob P os t ctx jobName = .ok job) {before after : List FsPath} {dir : FsPath}
  {e : Errno} {survives : FsPath → Bool} (hDirs : job.outdated = before ++ dir :: after)
  (hBefore : ∀ d ∈ before, os.removeAllFault d = none)
  (hFault : os.removeAllFault dir = some (e, survives))
include hLoad hDirs hBefore hFault

/-- A build that was not removed before has what the failing removal has left of it. -/
theorem interrupted_find_build {n : Nat} (hKept : buildDir ctx jobName n ∉ before) {q : FsPath}
    (hBelow : buildDir ctx jobName n <:+ q)
    (hSurvives : buildDir ctx jobName n = dir → survives q = true) :
    (job.cleanup os t).1.find q = t.find q := by
  rw [interrupted_find hDirs hBefore hFault, if_neg]
  have hSame : ∀ d, d ∈ before ∨ d = dir → d <:+ q → d = buildDir ctx jobName n := by
    intro d hd hq
    have hMem : d ∈ job.outdated := by
      rw [hDirs]
      obtain hd | rfl := hd
      · exact List.mem_append_left _ hd
      · exact List.mem_append_right _ List.mem_cons_self
    obtain ⟨m, rfl⟩ := outdated_buildDir hLoad hMem
    obtain rfl | hne := eq_or_ne m n
    · rfl
    · exact absurd hBelow (buildDir_disjoint hne hq)
  rintro (⟨d, hd, hq⟩ | ⟨hq, hLost⟩)
  · exact hKept (hSame d (Or.inl hd) hq ▸ hd)
  · rw [hSurvives (hSame dir (Or.inr rfl) hq).symm] at hLost
    cases hLost

/-- As long as the exit code survives, the maps and the disk have lost the same builds. -/
theorem interrupted_builds (hRead : ∀ p, os.ifstreamFault p = false)
    (hRead' : ∀ p, os'.ifstreamFault p = false) (hDir : survives dir = true)
    (hExitcode : survives (dir / "exitcode.txt") = true) :
    loadBuilds os' (job.cleanup os t).1 (jobPath ctx jobName) =
      (job.cleanup os t).2.1.builds := by
  have hApart := loadJob_apart hLoad
  obtain ⟨_, _, _, _, _, _, _, _, hBuilds⟩ := loadJob_eq_ok hLoad
  have hOldest := eq_oldest_of_prefix (hDirs ▸ List.prefix_append before (dir :: after))
  have hFind := @interrupted_find_build P os t ctx jobName job hLoad before after dir e survives
    hDirs hBefore hFault
  have hStatus : ∀ n, buildDir ctx jobName n ∉ before →
      (job.cleanup os t).1.pathExists (buildDir ctx jobName n) =
        t.pathExists (buildDir ctx jobName n) ∧
      buildStatus os' (job.cleanup os t).1 (buildDir ctx jobName n) =
        buildStatus os t (buildDir ctx jobName n) := by
    intro n hKept
    constructor
    · rw [FileTree.pathExists, hFind hKept List.suffix_rfl (fun h => h ▸ hDir)]
      rfl
    · rw [buildStatus_eq_recorded (hRead' _), buildStatus_eq_recorded (hRead _)]
      exact recordedStatus_congr (hFind hKept (FileTree.suffix_child _ "exitcode.txt".toList)
        (fun h => h ▸ hExitcode))
  apply Builds.ext_get
  intro s n
  apply Option.ext
  intro p
  have hMaps : ((job.cleanup os t).2.1.builds.get s).find n = some p ↔
      (job.builds.get s).find n = some p ∧ p ∉ before := by
    rw [cleanup_fault hDirs hBefore hFault, hApart.find_withoutOldest, ← hOldest]
  rw [hMaps, hBuilds, find_loadBuilds, find_loadBuilds]
  constructor
  · rintro ⟨hLt, rfl, hExists, hSeen⟩
    have hKept : buildDir ctx jobName n ∉ before := by
      intro hMem
      rw [← buildDir, FileTree.pathExists, interrupted_find hDirs hBefore hFault,
        if_pos (Or.inl ⟨_, hMem, List.suffix_rfl⟩)] at hExists
      cases hExists
    obtain ⟨hSame, hSameStatus⟩ := hStatus n hKept
    exact ⟨⟨hLt, rfl, hSame.symm.trans hExists, hSameStatus.symm.trans hSeen⟩, hKept⟩
  · rintro ⟨⟨hLt, rfl, hExists, hSeen⟩, hKept⟩
    obtain ⟨hSame, hSameStatus⟩ := hStatus n hKept
    exact ⟨hLt, rfl, hSame.trans hExists, hSameStatus.trans hSeen⟩

end Repair

/-- No maintenance touches a build that is recorded as pending. -/
theorem maintenanceMain_pending {t : FileTree} {ctx : Context} {jobName : Str} {n : Nat}
    (hPending : recordedStatus t (buildDir ctx jobName n) = .pending) (P : ProtoUtils) (os : Os)
    {q : FsPath} (hBelow : buildDir ctx jobName n <:+ q) :
    (maintenanceMain P os t ctx jobName).1.find q = t.find q := by
  obtain hSame | ⟨job, hLoad, ⟨dir, hDir, hq⟩, _⟩ := maintenanceMain_find P os t ctx jobName q
  · exact hSame
  · obtain ⟨m, rfl⟩ := outdated_buildDir hLoad hDir
    obtain rfl | hne := eq_or_ne m n
    · exact absurd hPending (outdated_not_pending hLoad hDir)
    · exact absurd hBelow (buildDir_disjoint hne hq)

theorem maintenances_pending {t : FileTree} {ctx : Context} {jobName : Str} {n : Nat}
    (hPending : recordedStatus t (buildDir ctx jobName n) = .pending) (P : ProtoUtils)
    (later : List Os) {q : FsPath} (hBelow : buildDir ctx jobName n <:+ q) :
    (later.foldl (fun t os => (maintenanceMain P os t ctx jobName).1) t).find q = t.find q := by
  induction later generalizing t with
  | nil => rfl
  | cons os later ih =>
    have hStill : recordedStatus (maintenanceMain P os t ctx jobName).1 (buildDir ctx jobName n) =
        .pending := by
      rw [recordedStatus_congr (maintenanceMain_pending hPending P os
        (FileTree.suffix_child _ "exitcode.txt".toList))]
      exact hPending
    rw [List.foldl_cons, ih hStill, maintenanceMain_pending hPending P os hBelow]

/-- A cleanup is interrupted while it removes a build. When the exit code of that
build is left, the next cleanup takes away the rest and the other outdated builds;
without it the remains are those of a pending build, and no maintenance ever takes
them away. -/
theorem interrupted_cleanup_repaired {os os' : Os} (hRead : ∀ p, os.ifstreamFault p = false)
    (hOs : os'.Faultless) {t : FileTree} {ctx : Context} {jobName : Str} {job : Job}
    (hLoad : loadJob P os t ctx jobName = .ok job) {before after : List FsPath} {dir : FsPath}
    {e : Errno} {survives : FsPath → Bool} (hDirs : job.outdated = before ++ dir :: after)
    (hBefore : ∀ d ∈ before, os.removeAllFault d = none)
    (hFault : os.removeAllFault dir = some (e, survives)) (hDir : survives dir = true) :
    (survives (dir / "exitcode.txt") = true → ∀ job',
      loadJob P os' (job.cleanup os t).1 ctx jobName = .ok job' →
      (job'.cleanup os' (job.cleanup os t).1).2.2 = none ∧
      (job'.cleanup os' (job.cleanup os t).1).1 = (job.cleanup os' t).1) ∧
    (survives (dir / "exitcode.txt") = false → (job.cleanup os' t).1.find dir = none ∧
      ∀ later : List Os,
        (later.foldl (fun t os => (maintenanceMain P os t ctx jobName).1) (job.cleanup os t).1).find
          dir = t.find dir ∧ t.pathExists dir = true) := by
  have hFaults : ∀ job : Job, ∀ d ∈ job.outdated, os'.removeAllFault d = none :=
    fun _ d _ => hOs.removeAll d
  have hMem : dir ∈ job.outdated := hDirs ▸ List.mem_append_right _ List.mem_cons_self
  obtain ⟨_, n, _, hLt, hNumber, hExists, _⟩ := outdated_found hLoad hMem
  constructor
  · intro hExitcode job' hLoad'
    obtain ⟨_, _, _, _, _, _, _, _, hBuilds⟩ := loadJob_eq_ok hLoad'
    rw [interrupted_builds hLoad hDirs hBefore hFault hRead hOs.openIfstream hDir hExitcode] at hBuilds
    have hConf : (job.cleanup os t).1.find (jobPath ctx jobName / "job.conf") =
        t.find (jobPath ctx jobName / "job.conf") := by
      rw [interrupted_find hDirs hBefore hFault, if_neg]
      have hOutside : ∀ d ∈ job.outdated, ¬d <:+ jobPath ctx jobName / "job.conf" := by
        intro d hd hBelow
        obtain ⟨m, rfl⟩ := outdated_buildDir hLoad hd
        exact not_buildDir_suffix_jobConf ctx jobName m hBelow
      rintro (⟨d, hd, hBelow⟩ | ⟨hBelow, _⟩)
      · exact hOutside d (hDirs ▸ List.mem_append_left _ hd) hBelow
      · exact hOutside dir hMem hBelow
    obtain ⟨_, hKs, hKb⟩ := loadJob_config_congr hLoad hLoad' hConf
    have hOutdated : job'.outdated = dir :: after := by
      rw [← outdated_withoutOldest hDirs, Job.outdated, Job.outdated, hBuilds, hKs, hKb,
        cleanup_fault hDirs hBefore hFault]
      rfl
    rw [cleanup_faultless (hFaults job'), cleanup_faultless (hFaults job), hOutdated, hDirs]
    refine ⟨rfl, SortedMap.ext_find fun q => ?_⟩
    rw [find_foldl_removeAll, find_foldl_removeAll, interrupted_find hDirs hBefore hFault]
    simp only [List.mem_append, List.mem_cons, or_and_right, exists_or, exists_eq_left]
    by_cases hq : ∃ d ∈ before, d <:+ q
    · simp [hq]
    · by_cases hBelow : dir <:+ q
      · simp [hBelow]
      · simp [hq, hBelow]
  · intro hExitcode
    subst hNumber
    have hLost : (job.cleanup os t).1.find (buildDir ctx jobName n / "exitcode.txt") = none := by
      rw [interrupted_find hDirs hBefore hFault,
        if_pos (Or.inr ⟨FileTree.suffix_child _ "exitcode.txt".toList, hExitcode⟩)]
    have hNotBefore : buildDir ctx jobName n ∉ before := by
      have hNodup := outdated_nodup (loadJob_apart hLoad)
      rw [hDirs] at hNodup
      exact fun hTwice => (List.nodup_append.mp hNodup).2.2 _ hTwice _ List.mem_cons_self rfl
    have hLeft := interrupted_find_build hLoad hDirs hBefore hFault hNotBefore List.suffix_rfl
      fun _ => hDir
    refine ⟨?_, fun later => ⟨?_, hExists⟩⟩
    · rw [cleanup_faultless (hFaults job), find_foldl_removeAll,
        if_pos ⟨_, hMem, List.suffix_rfl⟩]
    · rw [maintenances_pending (recordedStatus_of_absent hLost) P later List.suffix_rfl, hLeft]

def stuckAtSuccessful : Os :=
  failingAt (jobPath demoContext "j" / "000000")
    fun q => q ≠ jobPath demoContext "j" / "000000" / "output.txt"

/-- The removal of the successful build takes its output away and fails. The next cleanup
removes what is left of that build, and the broken one. -/
theorem interrupted_cleanup_repaired_two :
    loadJob .reference stuckAtSuccessful twoFinishedTree demoContext "j" = .ok twoFinishedJob ∧
      (twoFinishedJob.cleanup stuckAtSuccessful twoFinishedTree).1.pathExists
        (jobPath demoContext "j" / "000000" / "output.txt") = false ∧
      loadJob .reference (.ideal ∅) (twoFinishedJob.cleanup stuckAtSuccessful twoFinishedTree).1
        demoContext "j" = .ok twoFinishedJob ∧
      (twoFinishedJob.cleanup (.ideal ∅)
        (twoFinishedJob.cleanup stuckAtSuccessful twoFinishedTree).1).2.2 = none ∧
      (twoFinishedJob.cleanup (.ideal ∅)
        (twoFinishedJob.cleanup stuckAtSuccessful twoFinishedTree).1).1 =
          (twoFinishedJob.cleanup (.ideal ∅) twoFinishedTree).1 := by
  have hLoad : loadJob .reference stuckAtSuccessful twoFinishedTree demoContext "j" =
    .ok twoFinishedJob := rfl
  have hDirs : twoFinishedJob.outdated =
    [] ++ (jobPath demoContext "j" / "000000") :: [jobPath demoContext "j" / "000001"] := rfl
  have hAgain : loadJob .reference (.ideal ∅)
      (twoFinishedJob.cleanup stuckAtSuccessful twoFinishedTree).1 demoContext "j" =
    .ok twoFinishedJob := rfl
  refine ⟨hLoad, rfl, hAgain, ?_⟩
  exact (interrupted_cleanup_repaired (fun _ => rfl) (Os.ideal_faultless ∅) hLoad hDirs
    (List.forall_mem_nil _) rfl rfl).1 rfl _ hAgain

/-- The removal stops after it has taken away the exit code. -/
theorem interrupted_build_stays :
    ∃ job job', loadJob .reference (.ideal ∅) finishedTree demoContext "j" = .ok job ∧
      (∀ n p, job.builds.pending.find n ≠ some p) ∧
      loadJob .reference (.ideal ∅) (job.cleanup (interruptedOs
        fun q => q = jobPath demoContext "j" / "000000") finishedTree).1 demoContext "j" = .ok job' ∧
      (job'.cleanup (.ideal ∅) (job.cleanup (interruptedOs
        fun q => q = jobPath demoContext "j" / "000000") finishedTree).1).2.2 = none ∧
      (job'.cleanup (.ideal ∅) (job.cleanup (interruptedOs
        fun q => q = jobPath demoContext "j" / "000000") finishedTree).1).1.find
        (jobPath demoContext "j" / "000000") = some .directory ∧
      (job.cleanup (.ideal ∅) finishedTree).1.find (jobPath demoContext "j" / "000000") = none :=
  ⟨_, _, rfl, fun _ _ => (nomatch ·), rfl, rfl, rfl, rfl⟩

end CisCore
