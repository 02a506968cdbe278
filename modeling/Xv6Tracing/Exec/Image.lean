import Xv6Tracing.Exec.MainArguments

/-!
# The image of a program

The segments of an executable may come in any order and leave gaps.  When they do not
overlap, the new address space has the bytes of each at its place and zeros elsewhere.
-/

set_option autoImplicit false

namespace Xv6Tracing.Exec

open Lib Vm Growproc Process

variable {file : List Uchar} {off n : Uint} {image : Nat → Uchar} {ph : Proghdr} {a : Nat}
  {m : Machine} {argv : List CStr}

/-! ## Executables -/

def programHeaders (file : List Uchar) (elf : Elfhdr) : List Proghdr :=
  (List.range elf.phnum.toNat).map fun k =>
    Proghdr.ofBytes (field file (elf.phoff.toNat + sizeofProghdr * k) sizeofProghdr)

def fileHeader (file : List Uchar) : Elfhdr := Elfhdr.ofBytes (field file 0 sizeofElfhdr)

def loadable (file : List Uchar) : List Proghdr :=
  (programHeaders file (fileHeader file)).filter fun ph => ph.type = ELF_PROG_LOAD

def Proghdr.range (ph : Proghdr) : Set Nat :=
  Set.Ico ph.vaddr.toNat (ph.vaddr.toNat + ph.memsz.toNat)

def Proghdr.fileRange (ph : Proghdr) : Set Nat :=
  Set.Ico ph.vaddr.toNat (ph.vaddr.toNat + ph.filesz.toNat)

def highestEnd (segments : List Proghdr) : Nat :=
  segments.foldl (fun n ph => max n (ph.vaddr.toNat + ph.memsz.toNat)) 4096

/-- An executable whose headers and segments are in the file, and whose segments do not
overlap. -/
structure Executable (file : List Uchar) : Prop where
  small : file.length < 2 ^ 32
  headers : (fileHeader file).phoff.toNat + sizeofProghdr * (fileHeader file).phnum.toNat ≤ file.length
  aligned : ∀ ph ∈ loadable file, ph.vaddr.toNat % 4096 = 0
  above : ∀ ph ∈ loadable file, 4096 ≤ ph.vaddr.toNat
  apart : (loadable file).Pairwise fun ph ph' => Disjoint ph.range ph'.range
  sizes : ∀ ph ∈ loadable file, ph.filesz.toNat ≤ ph.memsz.toNat
  present : ∀ ph ∈ loadable file, ph.off.toNat + ph.filesz.toNat ≤ file.length

structure ImageLoaded (m : Machine) (file : List Uchar) : Prop where
  sz : m.sz.toNat = (highestEnd (loadable file) + 4095) / 4096 * 4096 + 2 * 4096
  mapped : ∀ va, User va → (Present m.mem m.pgdir va ↔ 4096 ≤ va.toNat ∧ va.toNat < m.sz.toNat)
  guard : ∀ va, User va → Present m.mem m.pgdir va → (¬ Accessible m.mem m.pgdir va ↔
    m.sz.toNat - 2 * 4096 ≤ va.toNat ∧ va.toNat < m.sz.toNat - 4096)
  bytes : ∀ va, User va → Present m.mem m.pgdir va → va.toNat < m.sz.toNat - 2 * 4096 →
    ∀ ph ∈ loadable file, va.toNat ∈ ph.fileRange →
      file[ph.off.toNat + (va.toNat - ph.vaddr.toNat)]? = some (userByte m.mem m.pgdir va)
  zeros : ∀ va, User va → Present m.mem m.pgdir va → va.toNat < m.sz.toNat - 2 * 4096 →
    (∀ ph ∈ loadable file, va.toNat ∉ ph.fileRange) → userByte m.mem m.pgdir va = 0

/-! ## What readi gives -/

theorem readFile_inside (small : file.length < 2 ^ 32) (inside : off.toNat + n.toNat ≤ file.length) :
    readFile file off n = some (field file off.toNat n.toNat) := by
  have length : (BitVec.ofNat 32 file.length).toNat = file.length := by
    rw [BitVec.toNat_ofNat]
    omega
  have sum : (off + n).toNat = off.toNat + n.toNat := by
    rw [BitVec.toNat_add]
    omega
  have within : ¬ (BitVec.ofNat 32 file.length < off ∨ off + n < off) := by
    rw [BitVec.lt_def, BitVec.lt_def, length, sum]
    omega
  have whole : ¬ BitVec.ofNat 32 file.length < off + n := by
    rw [BitVec.lt_def, length, sum]
    omega
  rw [readFile]
  dsimp only
  rw [if_neg within, if_neg whole]
  rfl

theorem length_field {offset k : Nat} (inside : offset + k ≤ file.length) :
    (field file offset k).length = k := by
  rw [field, List.length_take, List.length_drop]
  omega

theorem headerOf_inside {size : Nat} (small : file.length < 2 ^ 32)
    (inside : off.toNat + size ≤ file.length) :
    headerOf (readFile file) off size = some (field file off.toNat size) := by
  have value : (BitVec.ofNat 32 size).toNat = size := by
    rw [BitVec.toNat_ofNat]
    omega
  rw [headerOf, readFile_inside small (by rw [value]; exact inside), value]
  dsimp only
  rw [if_neg (not_not.mpr (length_field inside))]

theorem loadSegments_eq (small : file.length < 2 ^ 32) (phoff : Nat) : ∀ (count k : Nat),
    phoff + sizeofProghdr * (k + count) ≤ file.length →
    loadSegments (readFile file) count (BitVec.ofNat 32 (phoff + sizeofProghdr * k)) =
      ((List.range' k count).map fun k =>
        Proghdr.ofBytes (field file (phoff + sizeofProghdr * k) sizeofProghdr)).filter
          fun ph => ph.type = ELF_PROG_LOAD := by
  intro count
  induction count with
  | zero => exact fun _ _ => rfl
  | succ count ih =>
    intro k inside
    unfold sizeofProghdr at inside
    have value : (BitVec.ofNat 32 (phoff + 56 * k)).toNat = phoff + 56 * k := by
      rw [BitVec.toNat_ofNat]
      omega
    have header : headerOf (readFile file) (BitVec.ofNat 32 (phoff + 56 * k)) 56 =
        some (field file (phoff + 56 * k) 56) := by
      rw [headerOf_inside small (by omega), value]
    have next : BitVec.ofNat 32 (phoff + 56 * k) + BitVec.ofNat 32 56 =
        BitVec.ofNat 32 (phoff + 56 * (k + 1)) := by
      rw [← BitVec.ofNat_add, Nat.mul_succ, Nat.add_assoc]
    have rest := ih (k + 1) (by unfold sizeofProghdr; omega)
    unfold sizeofProghdr at rest ⊢
    rw [loadSegments, sizeofProghdr, header]
    dsimp only
    rw [next, rest, List.range'_succ, List.map_cons]
    grind

theorem Executable.segments (executable : Executable file) :
    (fileHeader file).segments (readFile file) = loadable file := by
  have headers := executable.headers
  have small := executable.small
  have offset : (fileHeader file).phoff.setWidth 32 =
      BitVec.ofNat 32 ((fileHeader file).phoff.toNat + sizeofProghdr * 0) := by
    rw [Nat.mul_zero, Nat.add_zero, BitVec.ofNat_toNat]
  rw [Elfhdr.segments, offset, loadSegments_eq small _ _ 0 (by rwa [Nat.zero_add]), loadable,
    programHeaders, List.range_eq_range']

theorem length_le_of_readFile {bytes : List Uchar} (found : readFile file off n = some bytes) :
    bytes.length ≤ file.length := by
  rw [readFile] at found
  dsimp only at found
  split at found
  · cases found
  · cases found
    rw [List.length_take, List.length_drop]
    omega

theorem headerRead_eq {elf : Elfhdr} (small : file.length < 2 ^ 32)
    (found : headerRead (readFile file) = some elf) : elf = fileHeader file := by
  obtain ⟨bytes, header, rfl⟩ := Option.map_eq_some_iff.mp found
  have whole : sizeofElfhdr ≤ file.length := by
    rw [headerOf] at header
    split at header
    · cases header
    · rename_i read
      split at header
      · cases header
      · rename_i length
        have least := length_le_of_readFile read
        omega
  have inside : (0 : Uint).toNat + sizeofElfhdr ≤ file.length := (Nat.zero_add _).symm ▸ whole
  rw [headerOf_inside small inside] at header
  cases header
  rfl

/-! ## Segments in place -/

theorem field_getElem? {offset k d : Nat} (inside : d < k) :
    (field file offset k)[d]? = file[offset + d]? := by
  rw [field, List.getElem?_take_of_lt inside, List.getElem?_drop]

theorem segmentByte_readFile (off filesz : Uint) (d : Nat) (small : file.length < 2 ^ 32)
    (present : off.toNat + filesz.toNat ≤ file.length) (inside : d < filesz.toNat) :
    file[off.toNat + d]? = some (segmentByte (readFile file) off filesz d) := by
  have start : (BitVec.ofNat 32 (d / 4096 * 4096)).toNat = d / 4096 * 4096 := by
    rw [BitVec.toNat_ofNat]
    omega
  rw [segmentByte]
  generalize BitVec.ofNat 32 (d / 4096 * 4096) = i at start ⊢
  have size : (chunk filesz i).toNat = min 4096 (filesz.toNat - i.toNat) :=
    toNat_chunk (by omega)
  have sum : (off + i).toNat = off.toNat + i.toNat := by
    rw [BitVec.toNat_add]
    omega
  have whole : (off + i).toNat + (chunk filesz i).toNat ≤ file.length := by omega
  rw [readFile_inside small whole, Option.getD_some, List.getD_eq_getElem?_getD,
    field_getElem? (by omega), sum, start, Nat.add_assoc, Nat.div_add_mod']
  have byte : off.toNat + d < file.length := by omega
  rw [List.getElem?_eq_getElem byte, Option.getD_some]

theorem placeSegment_inside (small : file.length < 2 ^ 32) (memory : ph.filesz.toNat < 2 ^ 32)
    (present : ph.off.toNat + ph.filesz.toNat ≤ file.length) (inside : a ∈ ph.fileRange) :
    file[ph.off.toNat + (a - ph.vaddr.toNat)]? = some (placeSegment (readFile file) image ph a) := by
  obtain ⟨lower, upper⟩ := inside
  have filesz : (ph.filesz.setWidth 32 : Uint).toNat = ph.filesz.toNat := by
    rw [BitVec.toNat_setWidth]
    omega
  have offset : (ph.off.setWidth 32 : Uint).toNat = ph.off.toNat := by
    rw [BitVec.toNat_setWidth]
    omega
  have byte := segmentByte_readFile (ph.off.setWidth 32) (ph.filesz.setWidth 32)
    (a - ph.vaddr.toNat) small (by omega) (by omega)
  rw [placeSegment, placed, if_pos (by omega), ← byte, offset]

theorem placeSegment_outside {read : Uint → Uint → Option (List Uchar)}
    (memory : ph.filesz.toNat < 2 ^ 32) (outside : a ∉ ph.fileRange) :
    placeSegment read image ph a = image a := by
  have filesz : (ph.filesz.setWidth 32 : Uint).toNat = ph.filesz.toNat := by
    rw [BitVec.toNat_setWidth]
    omega
  refine if_neg fun inside => outside ⟨inside.1, ?_⟩
  omega

theorem placeSegments_outside {read : Uint → Uint → Option (List Uchar)} :
    ∀ (segments : List Proghdr) (image : Nat → Uchar),
    (∀ ph ∈ segments, ph.filesz.toNat < 2 ^ 32) → (∀ ph ∈ segments, a ∉ ph.fileRange) →
    segments.foldl (placeSegment read) image a = image a := by
  intro segments
  induction segments with
  | nil => exact fun _ _ _ => rfl
  | cons ph segments ih =>
    intro image memory outside
    rw [List.foldl_cons, ih _ (fun ph' member => memory ph' (List.mem_cons_of_mem _ member))
      fun ph' member => outside ph' (List.mem_cons_of_mem _ member)]
    exact placeSegment_outside (memory ph List.mem_cons_self) (outside ph List.mem_cons_self)

/-- A segment is not overwritten by those that are loaded after it. -/
theorem placeSegments_inside (small : file.length < 2 ^ 32) :
    ∀ (segments : List Proghdr) (image : Nat → Uchar),
    segments.Pairwise (fun ph ph' => Disjoint ph.fileRange ph'.fileRange) →
    (∀ ph ∈ segments, ph.filesz.toNat < 2 ^ 32) →
    (∀ ph ∈ segments, ph.off.toNat + ph.filesz.toNat ≤ file.length) →
    ∀ ph ∈ segments, a ∈ ph.fileRange →
      file[ph.off.toNat + (a - ph.vaddr.toNat)]? =
        some (segments.foldl (placeSegment (readFile file)) image a) := by
  intro segments
  induction segments with
  | nil => intro image _ _ _ ph member; cases member
  | cons head segments ih =>
    intro image apart memory present ph member inside
    obtain ⟨first, rest⟩ := List.pairwise_cons.mp apart
    have memory' := fun ph' member => memory ph' (List.mem_cons_of_mem head member)
    rw [List.foldl_cons]
    grind [placeSegments_outside, placeSegment_inside]

/-! ## The arguments are above -/

theorem pushedImage_below : ∀ (argv : List CStr) (image : Nat → Uchar) (sp : Nat),
    argBytes argv ≤ sp → a < sp - argBytes argv → pushedImage image sp argv a = image a := by
  intro argv
  induction argv with
  | nil => exact fun _ _ _ _ => rfl
  | cons arg argv ih =>
    intro image sp room below
    rw [argBytes_cons] at room below
    rw [pushedImage, ih _ _ (by omega) (by omega)]
    exact overwritten_outside (Or.inl (by omega))

theorem finalImage_below {top : Nat} (room : argBytes argv ≤ top)
    (below : a < top - argBytes argv - 8 * (argv.length + 2)) :
    finalImage image top argv a = image a := by
  rw [finalImage, overwritten_outside (Or.inl below)]
  exact pushedImage_below argv image top room (by omega)

/-! ## The new program -/

theorem SegmentsLoaded.size {read : Uint → Uint → Option (List Uchar)} {segments : List Proghdr}
    {image image' : Nat → Uchar} {size : Nat}
    (loaded : SegmentsLoaded read segments image image' 4096 size) :
    size = highestEnd segments := by
  rw [loaded.size_eq, highestEnd]
  exact List.foldl_ext _ _ _ fun n ph member => by rw [(loaded.checked ph member).sum]

theorem Proghdr.fileRange_subset (sizes : ph.filesz.toNat ≤ ph.memsz.toNat) :
    ph.fileRange ⊆ ph.range :=
  Set.Ico_subset_Ico_right (Nat.add_le_add_left sizes _)

theorem Executable.fileRanges_apart (executable : Executable file) :
    (loadable file).Pairwise fun ph ph' => Disjoint ph.fileRange ph'.fileRange := by
  refine executable.apart.imp_of_mem fun {ph ph'} member member' apart => ?_
  exact apart.mono (Proghdr.fileRange_subset (executable.sizes ph member))
    (Proghdr.fileRange_subset (executable.sizes ph' member'))

theorem Installed.loaded {elf : Elfhdr} {size : Nat} (installed : Installed m argv elf size image)
    (executable : Executable file) (header : headerRead (readFile file) = some elf)
    (loaded : SegmentsLoaded (readFile file) (elf.segments (readFile file)) (fun _ => 0) image 4096
      size) : ImageLoaded m file := by
  have small := executable.small
  obtain rfl := headerRead_eq small header
  rw [executable.segments] at loaded
  obtain rfl := loaded.size
  have sz := installed.sz
  have top := installed.small
  have fits := installed.fits
  have memory : ∀ ph ∈ loadable file, ph.filesz.toNat < 2 ^ 32 := by grind [Executable]
  have bytes : ∀ va, User va → Present m.mem m.pgdir va → va.toNat < m.sz.toNat - 2 * 4096 →
      userByte m.mem m.pgdir va =
        (loadable file).foldl (placeSegment (readFile file)) (fun _ => 0) va.toNat := by
    intro va user present below
    rw [installed.bytes va user present, finalImage_below (by omega) (by omega), loaded.image_eq]
  refine ⟨by omega, ?_, ?_, ?_, ?_⟩
  · intro va user
    rw [installed.present va user]
    unfold vpn pages
    omega
  · intro va user present
    have place := (installed.present va user).mp present
    rw [installed.accessible va user]
    unfold vpn pages at place ⊢
    omega
  · grind [placeSegments_inside, executable.fileRanges_apart, Executable]
  · grind [placeSegments_outside]

/-- After a successful `exec` of an executable the new program has the file's segments in
its memory and zeros around them. -/
theorem exec_loads_image (m m' : Machine) (roots free : List AddrT) (p : Fin NPROC)
    (read : Nat → Uint → Uint → Option (List Uchar)) (path : List Uchar) (argv : List CStr)
    (i : Nat) (name : Fs.Name) (file : List Uchar) (sane : Sane m roots free)
    (found : Fs.resolve m.fs p path false = some (i, name)) (contents : read i = readFile file)
    (executable : Executable file) (succeeded : exec p read path argv m = .ok (0, m')) :
    ImageLoaded m' file := by
  have ends := wp_ok (exec_spec sane p read path argv) succeeded
  generalize ret : (0 : CInt) = result at ends
  cases ends with
  | failed => exact absurd ret (by decide)
  | done _ j name' elf image size found' header loaded installed => grind [installed.loaded]

/-! ## Two segments, the upper one first -/

def segmentEntry (off vaddr filesz memsz : AddrT) : List Uchar :=
  leBytes 1 ++ leBytes off ++ leBytes vaddr ++ leBytes 0 ++ leBytes filesz ++ leBytes memsz ++
    leBytes 0

def twoSegments : List Uchar :=
  [0x7F, 0x45, 0x4C, 0x46] ++ List.replicate 28 0 ++ leBytes 64 ++ List.replicate 16 0 ++ [2, 0] ++
    List.replicate 6 0 ++ segmentEntry 176 0x2000 4 8 ++ segmentEntry 180 0x1000 2 0x800 ++
    [0xB8, 0x2A, 0x00, 0xC3, 0x90, 0xC3]

theorem loadable_twoSegments :
    loadable twoSegments = [⟨1, 176, 0x2000, 4, 8⟩, ⟨1, 180, 0x1000, 2, 0x800⟩] := by
  decide +kernel

theorem twoSegments_executable : Executable twoSegments := by
  refine ⟨by decide +kernel, by decide +kernel, ?_, ?_, ?_, ?_, ?_⟩ <;> rw [loadable_twoSegments]
  · decide
  · decide
  · refine List.pairwise_pair.mpr (Set.disjoint_left.mpr fun x upper lower => ?_)
    have least : 0x2000 ≤ x := upper.1
    have most : x < 0x1000 + 0x800 := lower.2
    omega
  · decide
  · decide +kernel

theorem exec_loads_image_two : ∃ m',
    exec 0 (fun _ => readFile twoSegments) (cstr "/a") [] newProcess = .ok (0, m') ∧
      ImageLoaded m' twoSegments := by
  obtain ⟨free, sane⟩ := newProcess_sane
  have resolves : (Fs.resolve newProcess.fs 0 (cstr "/a") false).isSome = true := by decide +kernel
  obtain ⟨⟨i, name⟩, found⟩ := Option.isSome_iff_exists.mp resolves
  have succeeds : returns (exec 0 (fun _ => readFile twoSegments) (cstr "/a") []) newProcess
      (fun ret _ => ret = 0) = true := by decide +kernel
  obtain ⟨ret, m', succeeded, result⟩ := exists_of_returns succeeds
  obtain rfl := of_decide_eq_true result
  refine ⟨m', succeeded, ?_⟩
  exact exec_loads_image newProcess m' _ free 0 _ _ [] i name twoSegments sane found rfl
    twoSegments_executable succeeded

end Xv6Tracing.Exec
