import Mathlib.Logic.Function.Basic
import ClassicX.Lib.Runs

/-! # The table of the mapped files (`file.c`)

`fmap` maps a file and keeps its handles in a table of 8 slots, and `funmap` finds them by the address of the view. What
Windows answers is passed along. A handle or an address is a number, and 0 is the null one. -/

namespace ClassicX.File

def FILEMAPPINGDATA_BUFFER_SIZE : ℕ := 8

def INVALID_HANDLE_VALUE : Int := -1

structure FileMappingData where
  hFile : Int := 0
  hFileMapping : Int := 0
  lpcFile : Int := 0
  deriving DecidableEq

/-- The statics: `fnext` and `FileMappingDataBuffer`. -/
structure Table where
  fnext : ℕ := 0
  buffer : ℕ → FileMappingData := fun _ => {}

/-- `i` for the first slot in the table that meets `p`, in the order of the loops. -/
def Table.first (t : Table) (p : FileMappingData → Bool) : Option ℕ :=
  (List.range FILEMAPPINGDATA_BUFFER_SIZE).find? fun i => p (t.buffer i)

def Table.store (t : Table) (i : ℕ) (d : FileMappingData) : Table := { t with buffer := Function.update t.buffer i d }

/-- Finds the first free file slot. -/
def getfree (t : Table) : Table :=
  match t.first (·.hFile = 0) with
  | some i => { t with fnext := i }
  | none => t

/-- What `CreateFileA`, `CreateFileMapping`, `MapViewOfFile` and `VirtualQuery` answer. -/
structure Opened extends FileMappingData where
  RegionSize : ℕ

/-- The address, `*size` where it is stored, and the table. -/
def fmap (t : Table) (o : Opened) : Int × Option ℕ × Table :=
  if t.fnext = FILEMAPPINGDATA_BUFFER_SIZE then (0, none, t)
  else if o.hFile = INVALID_HANDLE_VALUE then (0, none, t)
  else
    let i := t.fnext
    let t := getfree (t.store i { t.buffer i with hFile := o.hFile })
    let t := t.store i { t.buffer i with hFileMapping := o.hFileMapping }
    let t := t.store i { t.buffer i with lpcFile := o.lpcFile }
    (o.lpcFile, some o.RegionSize, t)

/-- The calls of `funmap`. -/
inductive Call
  | UnmapViewOfFile (ptr : Int)
  | CloseHandle (handle : Int)
  deriving DecidableEq

/-- Calls in a row, up to the first that fails. -/
def funmap.all (win : Call → Bool) : List Call → Bool × List Call
  | [] => (true, [])
  | call :: calls =>
    if win call then ((funmap.all win calls).1, call :: (funmap.all win calls).2) else (false, [call])

/-- The result, the calls, and the table. A pointer that is in no slot makes it store behind the table. -/
def funmap (t : Table) (win : Call → Bool) (ptr : Int) : Option (Bool × List Call × Table) := do
  let i ← t.first (·.lpcFile = ptr)
  let d := t.buffer i
  let (r, calls) := funmap.all win [.UnmapViewOfFile ptr, .CloseHandle d.hFileMapping, .CloseHandle d.hFile]
  some (r, calls, t.store i { d with hFile := 0 })

/-! ### Steps -/

/-- A mapping: what Windows answered, and the slot that `fmap` took. -/
structure Mapping extends FileMappingData where
  slot : ℕ
  deriving DecidableEq

/-- The table, and the mappings whose address `fmap` returned and `funmap` was not called with. -/
structure Files where
  table : Table := {}
  live : List Mapping := []

inductive Act
  | fmap (o : Opened)
  | funmap (ptr : Int)

/-- Every call of Windows succeeds, and gives no address that is in use. `funmap` is called with an address in use. -/
def Act.Allowed (s : Files) : Act → Prop
  | .fmap o => o.hFile ≠ 0 ∧ o.hFile ≠ INVALID_HANDLE_VALUE ∧ o.hFileMapping ≠ 0 ∧ o.lpcFile ≠ 0 ∧
      ∀ m ∈ s.live, m.lpcFile ≠ o.lpcFile
  | .funmap ptr => ∃ m ∈ s.live, m.lpcFile = ptr

def step (s : Files) : Act → Option Files
  | .fmap o =>
    let (ptr, _, table) := File.fmap s.table o
    some ⟨table, if ptr = 0 then s.live else s.live ++ [⟨o.toFileMappingData, s.table.fnext⟩]⟩
  | .funmap ptr => do
    let (_, _, table) ← File.funmap s.table (fun _ => true) ptr
    some ⟨table, s.live.filter fun m => m.lpcFile ≠ ptr⟩

structure Step where
  s : Files
  act : Act
  s' : Files

def files : Runs.System Files Step where
  pre t := t.s
  post t := t.s'
  Ok t := t.act.Allowed t.s ∧ step t.s t.act = some t.s'

instance (s : Files) (act : Act) : Decidable (act.Allowed s) :=
  match act with
  | .fmap _ => inferInstanceAs (Decidable (_ ∧ _))
  | .funmap ptr => inferInstanceAs (Decidable (∃ m ∈ s.live, m.lpcFile = ptr))

/-- The steps of a list, up to the first that cannot be taken. -/
def steps (acts : List Act) : List Step × Files :=
  Runs.steps files (fun s act => if act.Allowed s then (step s act).map fun s' => ⟨s, act, s'⟩ else none) acts [] {}

theorem steps_run (acts : List Act) : Runs.Run files {} (steps acts).1 (steps acts).2 := by
  refine Runs.Run.steps (fun s act t h => ?_) acts .start
  obtain ⟨hallowed, h⟩ := Option.ite_none_right_eq_some.mp h
  obtain ⟨s', hr, rfl⟩ := Option.map_eq_some_iff.mp h
  exact ⟨rfl, hallowed, hr⟩

end ClassicX.File
