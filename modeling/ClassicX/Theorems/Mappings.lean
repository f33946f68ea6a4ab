import ClassicX.Server.File

/-! The table of the mapped files. `fmap` stores to the slot that the last call found, free or not, and `funmap` looks for an
address among the slots in use and those that are not any more. -/

namespace ClassicX.File
open Runs (Run Always)

/-- Every slot has a mapping. -/
def Full (s : Files) : Prop := ∀ i < FILEMAPPINGDATA_BUFFER_SIZE, ∃ m ∈ s.live, m.slot = i

/-- What has to hold of a step. `fmap` leaves the slots of the mappings alone, and fails where there is no other slot, and
    only there. `funmap` closes what was opened for the address, and frees its slot. -/
def Proper (t : Step) : Prop :=
  match t.act with
  | .fmap o =>
    (∀ m ∈ t.s.live, (fmap t.s.table o).2.2.buffer m.slot = t.s.table.buffer m.slot) ∧
    (Full t.s → (fmap t.s.table o).1 = 0) ∧ (¬Full t.s → (fmap t.s.table o).1 = o.lpcFile)
  | .funmap ptr => ∀ m ∈ t.s.live, m.lpcFile = ptr → funmap t.s.table (fun _ => true) ptr =
      some (true, [.UnmapViewOfFile ptr, .CloseHandle m.hFileMapping, .CloseHandle m.hFile],
        t.s.table.store m.slot { t.s.table.buffer m.slot with hFile := 0 })

/-- `fmap` finds the slot `fnext` free, and `funmap` finds the address in a slot in use first. -/
def Fits (t : Step) : Prop :=
  match t.act with
  | .fmap _ => (t.s.table.buffer t.s.table.fnext).hFile = 0
  | .funmap ptr => ∀ i, t.s.table.first (·.lpcFile = ptr) = some i → (t.s.table.buffer i).hFile ≠ 0

/-- Every mapping is in a slot of its own, and every slot in use has one. -/
structure Kept (s : Files) : Prop where
  fnext : s.table.fnext < FILEMAPPINGDATA_BUFFER_SIZE
  slot : ∀ m ∈ s.live, m.slot < FILEMAPPINGDATA_BUFFER_SIZE
  buffer : ∀ m ∈ s.live, s.table.buffer m.slot = m.toFileMappingData
  used : ∀ m ∈ s.live, m.hFile ≠ 0
  owned : ∀ i < FILEMAPPINGDATA_BUFFER_SIZE, (s.table.buffer i).hFile ≠ 0 → ∃ m ∈ s.live, m.slot = i
  distinct : ∀ m ∈ s.live, ∀ m' ∈ s.live, m.lpcFile = m'.lpcFile → m = m'

/-! ### The two functions -/

section Functions
variable {t : Table} {p : FileMappingData → Bool} {i : ℕ} {o : Opened} {ptr : Int}

theorem first_some (h : t.first p = some i) : p (t.buffer i) = true ∧ i < FILEMAPPINGDATA_BUFFER_SIZE := by
  rw [Table.first, List.find?_range_eq_some] at h
  exact ⟨h.1, List.mem_range.mp h.2.1⟩

theorem first_exists (hi : i < FILEMAPPINGDATA_BUFFER_SIZE) (hp : p (t.buffer i) = true) : ∃ j, t.first p = some j := by
  refine Option.isSome_iff_exists.mp ?_
  rw [Table.first, List.find?_isSome]
  exact ⟨i, List.mem_range.mpr hi, hp⟩

theorem getfree_buffer (t : Table) : (getfree t).buffer = t.buffer := by
  unfold getfree
  split <;> rfl

theorem getfree_fnext (h : t.fnext < FILEMAPPINGDATA_BUFFER_SIZE) : (getfree t).fnext < FILEMAPPINGDATA_BUFFER_SIZE := by
  unfold getfree
  split
  · exact (first_some ‹_›).2
  · exact h

/-- `fmap` stores to the slot `fnext`. -/
theorem fmap_eq (o : Opened) (hnext : t.fnext < FILEMAPPINGDATA_BUFFER_SIZE) (ho : o.hFile ≠ INVALID_HANDLE_VALUE) :
    ∃ n < FILEMAPPINGDATA_BUFFER_SIZE, fmap t o =
      (o.lpcFile, some o.RegionSize, ⟨n, Function.update t.buffer t.fnext o.toFileMappingData⟩) := by
  refine ⟨_, getfree_fnext (t := t.store t.fnext { t.buffer t.fnext with hFile := o.hFile }) hnext, ?_⟩
  simp only [fmap, if_neg (Nat.ne_of_lt hnext), if_neg ho, Table.store, getfree_buffer, Function.update_idem, Function.update_self]

theorem funmap_eq (h : t.first (·.lpcFile = ptr) = some i) : funmap t (fun _ => true) ptr =
    some (true, [.UnmapViewOfFile ptr, .CloseHandle (t.buffer i).hFileMapping, .CloseHandle (t.buffer i).hFile],
      t.store i { t.buffer i with hFile := 0 }) := by
  simp only [funmap, h, funmap.all, if_true, Option.bind_eq_bind, Option.bind_some]

end Functions

/-! ### Steps -/

section Steps
variable {s s' : Files} {o : Opened} {ptr : Int} {m m' : Mapping} {i : ℕ}

theorem Kept.same (hs : Kept s) (hm : m ∈ s.live) (hm' : m' ∈ s.live) (h : m.slot = m'.slot) : m = m' := by
  refine hs.distinct m hm m' hm' ?_
  rw [← hs.buffer m hm, ← hs.buffer m' hm', h]

/-- A slot that holds an address and is in use is the one of its mapping. -/
theorem Kept.found (hs : Kept s) (hm : m ∈ s.live) (hptr : m.lpcFile = ptr)
    (hfirst : s.table.first (·.lpcFile = ptr) = some i) (hused : (s.table.buffer i).hFile ≠ 0) : m.slot = i := by
  obtain ⟨hp, hi⟩ := first_some hfirst
  obtain ⟨m', hm', rfl⟩ := hs.owned i hi hused
  have hptr' : m'.lpcFile = ptr := by
    rw [← hs.buffer m' hm']
    exact of_decide_eq_true hp
  rw [hs.distinct m hm m' hm' (hptr.trans hptr'.symm)]

theorem Kept.finds (hs : Kept s) (hm : m ∈ s.live) : ∃ i, s.table.first (·.lpcFile = m.lpcFile) = some i := by
  refine first_exists (hs.slot m hm) ?_
  rw [hs.buffer m hm]
  exact decide_eq_true rfl

theorem Kept.map (hs : Kept s) {n : ℕ} (hn : n < FILEMAPPINGDATA_BUFFER_SIZE) (ho : o.hFile ≠ 0)
    (hnew : ∀ m ∈ s.live, m.lpcFile ≠ o.lpcFile) (hfree : (s.table.buffer s.table.fnext).hFile = 0) :
    Kept ⟨⟨n, Function.update s.table.buffer s.table.fnext o.toFileMappingData⟩,
      s.live ++ [⟨o.toFileMappingData, s.table.fnext⟩]⟩ := by
  have hother : ∀ m ∈ s.live, m.slot ≠ s.table.fnext := by
    intro m hm heq
    refine hs.used m hm ?_
    rw [← hs.buffer m hm, heq, hfree]
  constructor
  case fnext => exact hn
  case slot =>
    intro m hm
    rcases List.mem_append.mp hm with hm | hm
    · exact hs.slot m hm
    · rw [List.mem_singleton.mp hm]
      exact hs.fnext
  case buffer =>
    intro m hm
    rcases List.mem_append.mp hm with hm | hm
    · rw [← hs.buffer m hm]
      exact Function.update_of_ne (hother m hm) _ _
    · rw [List.mem_singleton.mp hm]
      exact Function.update_self _ _ _
  case used =>
    intro m hm
    rcases List.mem_append.mp hm with hm | hm
    · exact hs.used m hm
    · rw [List.mem_singleton.mp hm]
      exact ho
  case owned =>
    intro i hi hused
    by_cases heq : i = s.table.fnext
    · exact ⟨_, List.mem_append_right _ List.mem_cons_self, heq.symm⟩
    · simp only [Function.update_of_ne heq] at hused
      obtain ⟨m, hm, hslot⟩ := hs.owned i hi hused
      exact ⟨m, List.mem_append_left _ hm, hslot⟩
  case distinct =>
    intro m hm m' hm' heq
    rcases List.mem_append.mp hm with hm | hm <;> rcases List.mem_append.mp hm' with hm' | hm'
    · exact hs.distinct m hm m' hm' heq
    · rw [List.mem_singleton.mp hm'] at heq
      exact absurd heq (hnew m hm)
    · rw [List.mem_singleton.mp hm] at heq
      exact absurd heq.symm (hnew m' hm')
    · rw [List.mem_singleton.mp hm, List.mem_singleton.mp hm']

theorem Kept.unmap (hs : Kept s) (hm : m ∈ s.live) : Kept ⟨s.table.store m.slot { s.table.buffer m.slot with hFile := 0 },
    s.live.filter fun m' => m'.lpcFile ≠ m.lpcFile⟩ := by
  have hlive : ∀ m' ∈ s.live.filter fun m' => m'.lpcFile ≠ m.lpcFile, m' ∈ s.live ∧ m'.slot ≠ m.slot := by
    intro m' hm'
    obtain ⟨hm', hne⟩ := List.mem_filter.mp hm'
    refine ⟨hm', fun heq => ?_⟩
    rw [hs.same hm' hm heq] at hne
    simp at hne
  constructor
  case fnext => exact hs.fnext
  case slot => exact fun m' hm' => hs.slot m' (hlive m' hm').1
  case buffer =>
    intro m' hm'
    obtain ⟨hm', hne⟩ := hlive m' hm'
    rw [← hs.buffer m' hm']
    exact Function.update_of_ne hne _ _
  case used => exact fun m' hm' => hs.used m' (hlive m' hm').1
  case owned =>
    intro i hi hused
    simp only [Table.store] at hused
    by_cases heq : i = m.slot
    · rw [heq, Function.update_self] at hused
      exact absurd rfl hused
    · rw [Function.update_of_ne heq] at hused
      obtain ⟨m', hm', hslot⟩ := hs.owned i hi hused
      refine ⟨m', List.mem_filter.mpr ⟨hm', decide_eq_true fun hptr => heq ?_⟩, hslot⟩
      rw [← hslot, hs.distinct m' hm' m hm hptr]
  case distinct => exact fun m' hm' m'' hm'' => hs.distinct m' (hlive m' hm').1 m'' (hlive m'' hm'').1

theorem step_kept {act : Act} (hs : Kept s) (hallowed : act.Allowed s) (hstep : step s act = some s') (hk : Fits ⟨s, act, s'⟩) :
    Kept s' := by
  cases act with
  | fmap o =>
    obtain ⟨ho, hvalid, -, hptr, hnew⟩ := hallowed
    obtain ⟨n, hn, hfmap⟩ := fmap_eq o hs.fnext hvalid
    simp only [step, hfmap, if_neg hptr, Option.some.injEq] at hstep
    rw [← hstep]
    exact hs.map hn ho hnew hk
  | funmap ptr =>
    obtain ⟨m, hm, rfl⟩ := hallowed
    obtain ⟨i, hfirst⟩ := hs.finds hm
    obtain rfl := hs.found hm rfl hfirst (hk i hfirst)
    simp only [step, funmap_eq hfirst, Option.bind_eq_bind, Option.bind_some, Option.some.injEq] at hstep
    rw [← hstep]
    exact hs.unmap hm

theorem fmap_proper_iff (hs : Kept s) (hallowed : Act.Allowed s (.fmap o)) :
    Proper ⟨s, .fmap o, s'⟩ ↔ Fits ⟨s, .fmap o, s'⟩ := by
  obtain ⟨-, hvalid, -, hptr, hnew⟩ := hallowed
  obtain ⟨n, -, hfmap⟩ := fmap_eq o hs.fnext hvalid
  simp only [Proper, Fits, hfmap]
  constructor
  · rintro ⟨hkept, -, -⟩
    by_contra hused
    obtain ⟨m, hm, hslot⟩ := hs.owned s.table.fnext hs.fnext hused
    have hover := hkept m hm
    rw [hs.buffer m hm, hslot, Function.update_self] at hover
    exact hnew m hm (congrArg FileMappingData.lpcFile hover).symm
  · intro hfree
    have hother : ∀ m ∈ s.live, m.slot ≠ s.table.fnext := by
      intro m hm heq
      refine hs.used m hm ?_
      rw [← hs.buffer m hm, heq, hfree]
    refine ⟨fun m hm => Function.update_of_ne (hother m hm) _ _, fun hfull => ?_, fun _ => trivial⟩
    obtain ⟨m, hm, hslot⟩ := hfull s.table.fnext hs.fnext
    exact absurd hslot (hother m hm)

theorem funmap_proper_iff (hs : Kept s) (hallowed : Act.Allowed s (.funmap ptr)) :
    Proper ⟨s, .funmap ptr, s'⟩ ↔ Fits ⟨s, .funmap ptr, s'⟩ := by
  obtain ⟨m, hm, rfl⟩ := hallowed
  obtain ⟨i, hfirst⟩ := hs.finds hm
  simp only [Proper, Fits, funmap_eq hfirst]
  constructor
  · intro hproper j hj
    obtain rfl : i = j := Option.some.inj (hfirst.symm.trans hj)
    have hcalls := hproper m hm rfl
    simp only [Option.some.injEq, Prod.mk.injEq, List.cons.injEq, Call.CloseHandle.injEq, and_true, true_and] at hcalls
    rw [hcalls.1.2]
    exact hs.used m hm
  · intro hk m' hm' hptr
    have hslot := hs.found hm' hptr hfirst (hk i hfirst)
    rw [← hslot, hs.buffer m' hm']

end Steps

/-- The table is used as it has to be exactly if `fmap` finds its slot free, and `funmap` the slot of a mapping. Every mapping
    can then be closed. -/
theorem mappings_iff {h : List Step} {s : Files} (hrun : Run files {} h s) :
    (Always (fun _ t => Proper t) h ↔ Always (fun _ t => Fits t) h) ∧
    (Always (fun _ t => Fits t) h → ∀ m ∈ s.live, funmap s.table (fun _ => true) m.lpcFile ≠ none) := by
  have hinit : Kept {} := ⟨by decide, nofun, nofun, nofun, fun _ _ hused => absurd rfl hused, nofun⟩
  have hstep : ∀ (_ : List Step) (t : Step), Kept (files.pre t) → files.Ok t → Fits t → Kept (files.post t) :=
    fun _ _ hs hok hk => step_kept hs hok.1 hok.2 hk
  refine ⟨hrun.always_iff (fun _ s => Kept s) hinit hstep fun _ t hs hok => ?_, fun hk m hm => ?_⟩
  · obtain ⟨s, act, s'⟩ := t
    cases act with
    | fmap o => exact fmap_proper_iff hs hok.1
    | funmap ptr => exact funmap_proper_iff hs hok.1
  · have hs := hrun.inv_always (fun _ s => Kept s) hinit hstep hk
    obtain ⟨i, hfirst⟩ := hs.finds hm
    rw [funmap_eq hfirst]
    exact Option.some_ne_none _

/-- Two files are mapped, and the first is closed. -/
theorem mappings_iff_two : ∃ (h : List Step) (s : Files), Run files {} h s ∧ s.live = [⟨⟨2, 12, 200⟩, 1⟩] ∧
    (Always (fun _ t => Proper t) h ↔ Always (fun _ t => Fits t) h) := by
  have hrun := steps_run [.fmap ⟨⟨1, 11, 100⟩, 4096⟩, .fmap ⟨⟨2, 12, 200⟩, 4096⟩, .funmap 100]
  exact ⟨_, _, hrun, by decide, (mappings_iff hrun).1⟩

/-- A ninth file takes the slot of the eighth. Where a file is mapped again at the address it had before, the handles of the
    old mapping are closed. -/
theorem mappings_mixed :
    (∃ (h : List Step) (s : Files), Run files {} h s ∧ s.live.length = 9 ∧ ¬Always (fun _ t => Proper t) h) ∧
    ∃ (h : List Step) (s : Files), Run files {} h s ∧ s.live = [] ∧ ¬Always (fun _ t => Proper t) h := by
  have hfull := steps_run ((List.range 9).map fun k => .fmap ⟨⟨k + 1, k + 11, k + 21⟩, 4096⟩)
  have hagain := steps_run [.fmap ⟨⟨1, 11, 100⟩, 4096⟩, .funmap 100, .fmap ⟨⟨2, 12, 100⟩, 4096⟩, .funmap 100]
  refine ⟨⟨_, _, hfull, by decide, fun hall => ?_⟩, ⟨_, _, hagain, by decide, fun hall => ?_⟩⟩
  · have hnull := hall.2.2.1 (by unfold Full; decide)
    revert hnull
    decide
  · have hcalls := congrArg (Option.map fun r => r.2.1) (hall.2 ⟨⟨2, 12, 100⟩, 1⟩ (by decide) rfl)
    revert hcalls
    decide

end ClassicX.File
