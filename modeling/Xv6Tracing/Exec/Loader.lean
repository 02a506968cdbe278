import Xv6Tracing.Vm.PageTable

/-!
# Loading an executable

The first half of `exec`: the ELF header, the program headers and `loaduvm`.  The
loader is written over any state that contains the physical memory; how a file is
read and how its bytes reach a page are parameters.
-/

set_option autoImplicit false

namespace Xv6Tracing.Exec

open Lib Vm

/-! ## Headers -/

def leWord (w : Nat) (bytes : List Uchar) : BitVec w :=
  bytes.foldr (fun byte word => word <<< 8 ||| byte.setWidth w) 0

/-- The field of `n` bytes at an offset of a C structure. -/
def field (bytes : List Uchar) (offset n : Nat) : List Uchar := (bytes.drop offset).take n

def ELF_MAGIC : Uint := 0x464C457F
def ELF_PROG_LOAD : Uint := 1

structure Elfhdr where
  magic : Uint
  entry : AddrT
  phoff : AddrT
  phnum : BitVec 16
deriving DecidableEq, Repr

def sizeofElfhdr : Nat := 64

def Elfhdr.ofBytes (bytes : List Uchar) : Elfhdr where
  magic := leWord 32 (field bytes 0 4)
  entry := leWord 64 (field bytes 24 8)
  phoff := leWord 64 (field bytes 32 8)
  phnum := leWord 16 (field bytes 56 2)

structure Proghdr where
  type : Uint
  off : AddrT
  vaddr : AddrT
  filesz : AddrT
  memsz : AddrT
deriving DecidableEq, Repr

def sizeofProghdr : Nat := 56

def Proghdr.ofBytes (bytes : List Uchar) : Proghdr where
  type := leWord 32 (field bytes 0 4)
  off := leWord 64 (field bytes 8 8)
  vaddr := leWord 64 (field bytes 16 8)
  filesz := leWord 64 (field bytes 32 8)
  memsz := leWord 64 (field bytes 40 8)

/-! ## The loader -/

/-- What the loader uses: calls on the memory, `readi` of the executable (`none` is
-1) and the copy of bytes to the beginning of a page. -/
structure Loader (σ ε : Type) where
  vm : {α : Type} → VmM α → Prog σ ε α
  stop : {α : Type} → Halt → Prog σ ε α
  readi : Uint → Uint → Prog σ ε (Option (List Uchar))
  store : AddrT → List Uchar → Prog σ ε Unit

variable {σ ε : Type} (m : Loader σ ε)

def Loader.readHeader (off : Uint) (size : Nat) : Prog σ ε (Option (List Uchar)) := do
  match ← m.readi off (BitVec.ofNat 32 size) with
  | none => return none
  | some bytes => return if bytes.length ≠ size then none else some bytes

/-- The loop of `loaduvm`; `false` is the return value -1. -/
def Loader.loaduvmLoop (pgdir addr : AddrT) (offset sz : Uint) : Nat → Uint → Prog σ ε Bool
  | 0, _ => m.stop .endless
  | fuel + 1, i =>
    if i < sz then do
      match ← m.vm (walkpgdir pgdir (addr + i.setWidth 64) false) with
      | none => m.stop .loaduvmExist
      | some (pgtab, k) => do
          let s ← m.vm get
          let pa := PTE_ADDR (s.page pgtab k)
          let n := if sz - i < PGSIZE.setWidth 32 then sz - i else PGSIZE.setWidth 32
          match ← m.readi (offset + i) n with
          | none => return false
          | some bytes => do
              m.store (P2V pa) bytes
              if bytes.length ≠ n.toNat then return false
              else Loader.loaduvmLoop pgdir addr offset sz fuel (i + PGSIZE.setWidth 32)
    else return true

def Loader.loaduvm (pgdir addr : AddrT) (offset sz : Uint) : Prog σ ε Bool :=
  if addr % PGSIZE ≠ 0 then m.stop .loaduvmAlign
  else m.loaduvmLoop pgdir addr offset sz (sz.toNat / 4096 + 2) 0

/-- The program headers that are left; `none` is `goto bad`. -/
def Loader.loadLoop (pgdir : AddrT) : Nat → Uint → AddrT → Prog σ ε (Option AddrT)
  | 0, _, sz => return some sz
  | count + 1, off, sz => do
      match ← m.readHeader off sizeofProghdr with
      | none => return none
      | some bytes =>
        let ph := Proghdr.ofBytes bytes
        if ph.type ≠ ELF_PROG_LOAD then
          Loader.loadLoop pgdir count (off + BitVec.ofNat 32 sizeofProghdr) sz
        else if ph.memsz < ph.filesz then return none
        else if ph.vaddr + ph.memsz < ph.vaddr then return none
        else do
          let sz ← m.vm (allocuvm pgdir sz (ph.vaddr + ph.memsz))
          if sz = 0 then return none
          else if ph.vaddr % PGSIZE ≠ 0 then return none
          else if ← m.loaduvm pgdir ph.vaddr (ph.off.setWidth 32) (ph.filesz.setWidth 32) then
            Loader.loadLoop pgdir count (off + BitVec.ofNat 32 sizeofProghdr) sz
          else return none

/-- How the first half of `exec` ends: at `bad`, with the table made so far, or
with the table and the size of a loaded program. -/
inductive Loaded where
  | bad (pgdir : Option AddrT)
  | program (elf : Elfhdr) (pgdir sz : AddrT)
deriving DecidableEq, Repr

/-- From the ELF header to the last program header.  `off` is an `int`, so `phoff`
loses its upper half; the first page stays unmapped. -/
def Loader.load : Prog σ ε Loaded := do
  match ← m.readHeader 0 sizeofElfhdr with
  | none => return .bad none
  | some bytes =>
    let elf := Elfhdr.ofBytes bytes
    if elf.magic ≠ ELF_MAGIC then return .bad none
    else do
      let pgdir ← m.vm setupkvm
      if pgdir = 0 then return .bad none
      else do
        match ← m.loadLoop pgdir elf.phnum.toNat (elf.phoff.setWidth 32) PGSIZE with
        | none => return .bad (some pgdir)
        | some sz => return .program elf pgdir sz

/-! ## A file of bytes -/

structure Load where
  mem : Memory
  written : List AddrT

abbrev LoadM (α : Type) : Type := Prog Load Halt α

def liftVm {α : Type} (call : VmM α) : LoadM α := fun s =>
  match call s.mem with
  | .ok (a, t) => .ok (a, { s with mem := t })
  | .error e => .error e

def storeBytes (row : BitVec 9 → AddrT) (bytes : List Uchar) : BitVec 9 → AddrT := fun i =>
  leWord 64 ((List.range 8).map fun j =>
    bytes.getD (8 * i.toNat + j) ((row i).extractLsb' (8 * j) 8))

/-- What `readi` gives of a regular file with this content. -/
def readFile (file : List Uchar) (off n : Uint) : Option (List Uchar) :=
  let size : Uint := BitVec.ofNat 32 file.length
  if size < off ∨ off + n < off then none
  else
    let n := if size < off + n then size - off else n
    some ((file.drop off.toNat).take n.toNat)

def fileLoader (file : List Uchar) : Loader Load Halt where
  vm := liftVm
  stop := throw
  readi off n := return readFile file off n
  store page bytes := modify fun s =>
    ⟨s.mem.setPage page (storeBytes (s.mem.page page) bytes), page :: s.written⟩

/-- The loader on an inode whose bytes are `read`, whatever they are. -/
def readLoader (read : Uint → Uint → Option (List Uchar)) : Loader Load Halt where
  vm := liftVm
  stop := throw
  readi off n := return read off n
  store page bytes := modify fun s =>
    ⟨s.mem.setPage page (storeBytes (s.mem.page page) bytes), page :: s.written⟩

theorem fileLoader_eq (file : List Uchar) : fileLoader file = readLoader (readFile file) := rfl

end Xv6Tracing.Exec
