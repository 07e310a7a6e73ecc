import Mathlib.Data.List.Range
import Phpspy.Trace.Event

/-!
# The memory of the target

`phpspy` copies structures of the Zend engine out of a running process with
`copy_proc_mem` and reads their fields at the offsets of the PHP version at
hand.  This module has byte-addressed memory, the copies and the offsets.
-/

namespace Phpspy

open ByteText

/-! ## Copies -/

/-- Why `process_vm_readv` does not deliver all bytes: there is no such
process, or anything else. -/
inductive ReadFault where
  | noProcess
  | other
deriving DecidableEq, Repr

/-- A memory image, and which reads of it fail. -/
structure Remote where
  byte : ℕ → UInt8
  fault : ℕ → ℕ → Option ReadFault

/-- Pointers have 64 bits. -/
def ptrAdd (p offset : ℕ) : ℕ :=
  (p + offset) % 2 ^ 64

def Remote.bytes (mem : Remote) (addr size : ℕ) : Bytes :=
  (List.range size).map fun i => mem.byte (ptrAdd addr i)

/-- The most that Linux transfers in one call, `MAX_RW_COUNT`.  A longer read
is a partial one. -/
def maxTransfer : ℕ := 0x7ffff000

/-- `copy_proc_mem` -/
def copyProcMem (mem : Remote) (raddr size : ℕ) : Except Status Bytes :=
  if raddr = 0 then .error Status.error
  else
    match mem.fault raddr size with
    | some .noProcess => .error (Status.error ||| Status.errPidDead)
    | some .other => .error Status.error
    | none =>
        if size ≤ maxTransfer then .ok (mem.bytes raddr size)
        else .error Status.error

theorem copyProcMem_eq_ok_iff {mem : Remote} {raddr size : ℕ} {bs : Bytes} :
    copyProcMem mem raddr size = .ok bs ↔
      raddr ≠ 0 ∧ mem.fault raddr size = none ∧ size ≤ maxTransfer ∧
        bs = mem.bytes raddr size := by
  unfold copyProcMem
  by_cases hnull : raddr = 0
  · simp [hnull]
  · cases hfault : mem.fault raddr size with
    | some fault => cases fault <;> simp [hnull]
    | none =>
        by_cases hsize : size ≤ maxTransfer
        · simp [hnull, hsize, eq_comm]
        · simp [hnull, hsize]

theorem copyProcMem_eq_ok {mem : Remote} {raddr size : ℕ} {bs : Bytes}
    (h : copyProcMem mem raddr size = .ok bs) : bs = mem.bytes raddr size :=
  (copyProcMem_eq_ok_iff.mp h).2.2.2

theorem bind_eq_ok_iff {α β : Type} {x : Except Status α}
    {f : α → Except Status β} {b : β} :
    (x >>= f) = .ok b ↔ ∃ a, x = .ok a ∧ f a = .ok b := by
  cases x with
  | error rv => simp [bind, Except.bind]
  | ok a => simp [bind, Except.bind]

/-! ## Fields -/

def leVal : Bytes → ℕ
  | [] => 0
  | b :: bs => b.toNat + 256 * leVal bs

def field (bs : Bytes) (offset size : ℕ) : ℕ :=
  leVal ((bs.drop offset).take size)

/-- A field of a copy is what a copy of the field would be. -/
theorem field_bytes (mem : Remote) (addr : ℕ) {offset size total : ℕ}
    (h : offset + size ≤ total) :
    field (mem.bytes addr total) offset size =
      leVal (mem.bytes (ptrAdd addr offset) size) := by
  rw [field]
  congr 1
  apply List.ext_getElem
  · simp only [Remote.bytes, List.length_take, List.length_drop,
      List.length_map, List.length_range]
    omega
  · intro i _ _
    simp only [Remote.bytes, List.getElem_take, List.getElem_drop,
      List.getElem_map, List.getElem_range, ptrAdd, Nat.mod_add_mod,
      Nat.add_assoc]

/-- The value of a 32-bit two's complement `int`. -/
def wrap32 (z : ℤ) : ℤ :=
  z.bmod (2 ^ 32)

theorem wrap32_of_le {z : ℤ} (hlow : -2 ^ 31 ≤ z) (hhigh : z < 2 ^ 31) :
    wrap32 z = z := by
  rw [wrap32, Int.bmod_eq_of_le] <;> omega

/-! ## Structure layouts -/

/-- The PHP versions with a `php_structs` header. -/
inductive PhpVersion where
  | v70
  | v71
  | v72
  | v73
  | v74
  | v80
  | v81
  | v82
  | v83
  | v84
  | v85
  | v86
deriving DecidableEq, Repr

/-- The versions in the order in which `main_pid` compares them. -/
def PhpVersion.all : List PhpVersion :=
  [.v70, .v71, .v72, .v73, .v74, .v80, .v81, .v82, .v83, .v84, .v85, .v86]

structure Layout where
  /-- `offsetof(zend_execute_data, prev_execute_data)` -/
  prevExecuteData : ℕ
  /-- `sizeof(zend_execute_data)` -/
  executeDataSize : ℕ
  /-- `offsetof(zend_op_array, filename)` -/
  filename : ℕ
  /-- `offsetof(zend_op_array, line_start)` -/
  lineStart : ℕ
  /-- `sizeof(zend_function)` -/
  functionSize : ℕ
deriving Repr

/-- The headers under `structs`. -/
def PhpVersion.layout : PhpVersion → Layout
  | .v70 => ⟨56, 72, 120, 128, 132⟩
  | .v71 => ⟨48, 64, 120, 128, 132⟩
  | .v72 => ⟨48, 64, 120, 128, 132⟩
  | .v73 => ⟨48, 64, 128, 136, 140⟩
  | .v74 => ⟨48, 64, 136, 144, 148⟩
  | .v80 => ⟨48, 64, 144, 152, 156⟩
  | .v81 => ⟨48, 64, 144, 152, 156⟩
  | .v82 => ⟨48, 64, 152, 160, 164⟩
  | .v83 => ⟨48, 64, 144, 152, 156⟩
  | .v84 => ⟨48, 64, 168, 176, 180⟩
  | .v85 => ⟨48, 64, 168, 176, 180⟩
  | .v86 => ⟨48, 64, 168, 176, 180⟩

theorem PhpVersion.prevExecuteData_add_le (v : PhpVersion) :
    v.layout.prevExecuteData + 8 ≤ v.layout.executeDataSize := by
  cases v <;> decide

end Phpspy
