import Xv6Tracing.Exec.Outcome

/-!
# When exec fails

A failed `exec` leaves the process and the system as they were, apart from two registers
of the trap frame when the strings fit in the stack page and the pointers to them do not.
-/

set_option autoImplicit false

namespace Xv6Tracing.Exec

open Lib Vm Process

def programFs : Fs.FS :=
  (Fs.step Fs.rootOnly (.open_ 0 (some (cstr "/a")) Fs.O_CREATE)).getD Fs.rootOnly

theorem programFs_consistent : Fs.Consistent programFs := by
  unfold programFs
  cases taken : Fs.step Fs.rootOnly (.open_ 0 (some (cstr "/a")) Fs.O_CREATE) with
  | none => exact Fs.rootOnly_consistent
  | some t =>
    have inTree : Fs.MakesInTree Fs.rootOnly (.open_ 0 (some (cstr "/a")) Fs.O_CREATE) := nofun
    have done := Fs.rootOnly_consistent.step_done inTree taken
    exact done.consistent Fs.rootOnly_consistent

def noRegisters : Trapframe := ⟨0, 0, 0, 0, 0, 0, 0, 0, 0, 0, 0, 0, 0, 0, 0, 0, 0, 0, 0, 0, 0, 0⟩

def newProcess : Machine where
  fs := programFs
  mem := tenPagesTable.2
  pgdir := tenPagesTable.1
  sz := 0
  name := List.replicate 16 0
  tf := noRegisters

theorem sane_of_setupkvm {s t : Memory} {free : List AddrT} {m : Machine}
    (allocator : Sound s [] free) (made : setupkvm s = .ok (m.pgdir, t)) (memory : m.mem = t)
    (kernel : KERNBASE < s.kend) (fs : Fs.Consistent m.fs) : ∃ rest, Sane m [m.pgdir] rest := by
  obtain ⟨rest, rfl, result⟩ := setupkvm_result allocator made
  rw [result] at memory
  have kend : m.mem.kend = s.kend := by rw [memory]; rfl
  refine ⟨rest, ?_, List.nodup_singleton _, List.mem_cons_self, ?_, kend.symm ▸ kernel, fs⟩
  · rw [memory]
    exact sound_newRoot allocator
  · intro q owned
    rw [memory, owned_newRoot allocator] at owned
    rw [kend]
    rcases owned with rfl | ⟨r, root, -⟩
    · exact allocator.usable _ List.mem_cons_self
    · exact absurd root List.not_mem_nil

theorem newProcess_sane : ∃ free, Sane newProcess [newProcess.pgdir] free := by
  obtain ⟨free, allocator⟩ := tenPages_sound
  have made : setupkvm tenPages = .ok (newProcess.pgdir, newProcess.mem) := tenPages_setupkvm
  exact sane_of_setupkvm allocator made rfl (by decide +kernel) programFs_consistent

/-- What `readi` gives when every file is `oneSegment`. -/
def readSegment (_ : Nat) : Uint → Uint → Option (List Uchar) := readFile (oneSegment 0x1000 4)

def manyAs (n : Nat) (short : n + 1 < 2 ^ 31) : CStr where
  bytes := List.replicate n 0x61
  noNul := fun member => absurd (List.eq_of_mem_replicate member) (by decide)
  short := by rwa [List.length_replicate]

end Xv6Tracing.Exec
