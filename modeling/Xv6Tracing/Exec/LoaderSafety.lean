import Xv6Tracing.Exec.Loading

/-!
# What the loader writes

A file whose segments stay out of the first page is loaded into frames that were free
and that the new table maps, and nowhere else.  The loader does not keep a segment out of
the first page, which is never mapped.
-/

set_option autoImplicit false

namespace Xv6Tracing.Exec

open Lib Vm

variable {s : Memory} {free free' : List AddrT} {r sz : AddrT} {frame : Nat → AddrT}
  {image : Nat → Uchar} {low : Prop}

def headerBytes (file : List Uchar) (off : Uint) (size : Nat) : Option (List Uchar) :=
  match readFile file off (BitVec.ofNat 32 size) with
  | none => none
  | some bytes => if bytes.length ≠ size then none else some bytes

def elfhdr (file : List Uchar) : Option Elfhdr :=
  (headerBytes file 0 sizeofElfhdr).map Elfhdr.ofBytes

def proghdr (file : List Uchar) (off : Uint) : Option Proghdr :=
  (headerBytes file off sizeofProghdr).map Proghdr.ofBytes

/-- The `k`-th program header asks for a segment to be loaded. -/
def Loadable (file : List Uchar) (ph : Proghdr) : Prop :=
  ∃ elf k, elfhdr file = some elf ∧ k < elf.phnum.toNat ∧
    proghdr file (elf.phoff.setWidth 32 + BitVec.ofNat 32 (sizeofProghdr * k)) = some ph ∧
    ph.type = ELF_PROG_LOAD

def Enough (file : List Uchar) (free : List AddrT) : Prop :=
  free ≠ [] ∧ ∀ ph, Loadable file ph → ph.Fits free

def Loaded.pgdir : Loaded → Option AddrT
  | .bad pgdir => pgdir
  | .program _ pgdir _ => some pgdir

/-- Bytes of the file are only in frames that the new table maps and that were free,
and every page that was not free is as before. -/
structure SafelyLoaded (s : Memory) (free : List AddrT) (result : Loaded) (l : Load) : Prop where
  frames : ∀ p ∈ l.written, p ∈ free ∧ ∃ pgdir va, result.pgdir = some pgdir ∧ User va ∧
    pteWord l.mem pgdir va &&& PTE_P ≠ 0 ∧ P2V (PTE_ADDR (pteWord l.mem pgdir va)) = p
  others : ∀ p, p ∉ free → l.mem.page p = s.page p

theorem Loading.safe {result : Loaded} {l : Load}
    (loading : Loading s l.mem free free' r sz frame l.written image low) (high : ¬ low)
    (made : result.pgdir = some r) : SafelyLoaded s free result l where
  frames p member := by grind [loading.place, present_newWord, Loading]
  others p other := loading.kept p other fun _ => high

/-- The segments that the loop comes to are among the program headers. -/
theorem exists_of_mem_loadSegments {file : List Uchar} {ph : Proghdr} : ∀ (count : Nat) (off : Uint),
    ph ∈ loadSegments (readFile file) count off →
    ∃ j < count, proghdr file (off + BitVec.ofNat 32 (sizeofProghdr * j)) = some ph ∧
      ph.type = ELF_PROG_LOAD := by
  intro count
  induction count with
  | zero => intro off member; cases member
  | succ count ih =>
    intro off member
    have later : ph ∈ loadSegments (readFile file) count (off + BitVec.ofNat 32 sizeofProghdr) →
        ∃ j < count + 1, proghdr file (off + BitVec.ofNat 32 (sizeofProghdr * j)) = some ph ∧
          ph.type = ELF_PROG_LOAD := by
      intro rest
      obtain ⟨j, less, found, loadable⟩ := ih _ rest
      refine ⟨j + 1, by omega, ?_, loadable⟩
      rw [BitVec.add_assoc, ← BitVec.ofNat_add] at found
      rwa [Nat.mul_succ, Nat.add_comm]
    rw [loadSegments] at member
    cases found : headerOf (readFile file) off sizeofProghdr with
    | none =>
      rw [found] at member
      cases member
    | some bytes =>
      rw [found] at member
      dsimp only at member
      split at member
      · exact later member
      · rename_i loadable
        rcases List.mem_cons.mp member with rfl | rest
        · refine ⟨0, by omega, ?_, not_not.mp loadable⟩
          have here : headerBytes file off sizeofProghdr = some bytes := found
          simp [proghdr, here]
        · exact later rest

def leBytes (word : AddrT) : List Uchar := (List.range 8).map fun j => word.extractLsb' (8 * j) 8

def oneSegment (vaddr memsz : AddrT) : List Uchar :=
  [0x7F, 0x45, 0x4C, 0x46] ++ List.replicate 28 0 ++ leBytes 64 ++ List.replicate 16 0 ++ [1, 0] ++
    List.replicate 6 0 ++
    [1, 0, 0, 0, 0, 0, 0, 0] ++ leBytes 120 ++ leBytes vaddr ++ leBytes 0 ++ leBytes 4 ++
    leBytes memsz ++ leBytes 0 ++
    [0xB8, 0x2A, 0x00, 0xC3]

def tenPagesList : List AddrT :=
  [tenPage 9, tenPage 8, tenPage 7, tenPage 6, tenPage 5, tenPage 4, tenPage 3, tenPage 2,
    tenPage 1, tenPage 0]

theorem tenPagesList_sound : Sound tenPages [] tenPagesList := by
  obtain ⟨free, sound⟩ := tenPages_sound
  have list : Linked tenPages.page tenPages.freelist tenPagesList := by decide +kernel
  rwa [sound.linked.unique list] at sound

def segmentHeader (vaddr memsz : AddrT) : Proghdr := ⟨1, 120, vaddr, 4, memsz⟩

section Sample

-- The elaborator is not to run the loader.
attribute [local irreducible] wp

end Sample

end Xv6Tracing.Exec
