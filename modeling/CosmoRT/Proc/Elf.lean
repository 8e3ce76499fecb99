import CosmoRT.Lib.Attempt
import CosmoRT.Proc.UserStack

/-!
# Loading an ELF image: `proc/elf.c` and the headers in `do_execve_kpath`

`elf_load_ex` loads from a buffer, `elf_load_ex_stream` through a reader with the headers in one
page; `do_execve_kpath` looks at the headers in `hdr_buf` before it loads, and `create_elf_vmas`
reads them again from `hdr_buf` and, for the interpreter, from `ihdr`.

All offsets and sizes are 64-bit numbers out of the file.  Every access to a buffer is recorded
with the size of the buffer, as well as every page that is mapped.  What a buffer holds outside
its size is arbitrary.  What the environment decides is in `MemEnv` (which allocations succeed)
and in the reader.
-/

namespace CosmoRT.Proc

open Lib Lib.Bytes Attempt

/-! ## What is recorded -/

/-- `n` bytes of a buffer of `size` bytes, from the offset `off` on. -/
structure Access where
  size : ℕ
  off : ℕ
  n : ℕ
  deriving DecidableEq

def Access.Inside (a : Access) : Prop := a.n = 0 ∨ a.off + a.n ≤ a.size

instance (a : Access) : Decidable a.Inside := inferInstanceAs (Decidable (_ ∨ _))

/-- A page of the image: its address, its protection and the bytes copied to it. -/
structure ImagePage where
  va : ℕ
  prot : ℕ
  fill : List Byte

structure LoadLog where
  touched : List Access
  mapped : List ImagePage
  /-- pages asked for -/
  allocs : ℕ
  /-- calls of the reader -/
  reads : ℕ

/-- Computations of the loader; the errors are those of the source. -/
abbrev Loader := Attempt ℤ LoadLog

/-- Which pages and page tables are to be had. -/
structure MemEnv where
  page : ℕ → Bool
  table : ℕ → Bool

/-- An access to a buffer. -/
def touch (size off n : ℕ) : Loader Unit :=
  fun l => (.ok (), { l with touched := ⟨size, off, n⟩ :: l.touched })

section

variable (env : MemEnv)

/-- `alloc_page`. -/
def allocPage : Loader Unit :=
  fun l => (if env.page l.allocs then .ok () else .error (-1), { l with allocs := l.allocs + 1 })

/-- The end of the lower half. -/
def userEnd : ℕ := 0x800000000000

/-- `map_user_page`. -/
def mapUserPage (p : ImagePage) : Loader Unit :=
  fun l =>
    if p.va ≥ userEnd then (.error (-1), l)
    else if env.table l.mapped.length then (.ok (), { l with mapped := p :: l.mapped })
    else (.error (-1), l)

/-- What a call of the reader stores and returns. -/
structure ReadResult where
  bytes : List Byte
  rc : ℤ

/-- A reader of the file with the first `len` bytes of `file`: each call stores at most what was
asked for, bytes of the file, and returns their number or an error. -/
structure FileReader (file : Mem) (len : ℕ) where
  result : ℕ → ℕ → ℕ → ReadResult
  serves : ∀ k off n, ∃ m, m ≤ n ∧ m ≤ len - off ∧ (result k off n).bytes = read file off m ∧
    ((result k off n).rc = m ∨ (result k off n).rc < 0)

/-- A reader that delivers as much as there is. -/
def FileReader.Complete {file : Mem} {len : ℕ} (rd : FileReader file len) : Prop :=
  ∀ k off n, (rd.result k off n).rc = min n (len - off)

/-- One call of the reader. -/
def FileReader.call {file : Mem} {len : ℕ} (rd : FileReader file len) (off n : ℕ) :
    Loader ReadResult :=
  fun l => (.ok (rd.result l.reads off n), { l with reads := l.reads + 1 })

/-! ## Headers -/

/-- A number of `n` bytes. -/
def field (m : Mem) (off n : ℕ) : ℕ := (ofBytes (8 * n) (read m off n)).toNat

/-- `Elf64_Ehdr`, as far as the loader looks at it. -/
structure ElfHeader where
  ident : List Byte
  type : ℕ
  machine : ℕ
  entry : ℕ
  phoff : ℕ
  phentsize : ℕ
  phnum : ℕ

def ElfHeader.ofMem (m : Mem) : ElfHeader :=
  ⟨read m 0 5, field m 16 2, field m 18 2, field m 24 8, field m 32 8, field m 54 2, field m 56 2⟩

/-- `Elf64_Phdr`, without `p_paddr` and `p_align`. -/
structure ProgHeader where
  type : ℕ
  flags : ℕ
  offset : ℕ
  vaddr : ℕ
  filesz : ℕ
  memsz : ℕ

def ProgHeader.ofMem (m : Mem) (off : ℕ) : ProgHeader :=
  ⟨field m off 4, field m (off + 4) 4, field m (off + 8) 8, field m (off + 16) 8,
    field m (off + 32) 8, field m (off + 40) 8⟩

def ptLoad : ℕ := 1
def ptInterp : ℕ := 3
def etExec : ℕ := 2
def etDyn : ℕ := 3
def emX8664 : ℕ := 62

/-- `sizeof(Elf64_Ehdr)`. -/
def ehdrSize : ℕ := 64

/-- `sizeof(Elf64_Phdr)`. -/
def phdrSize : ℕ := 56

section

variable (eh : ElfHeader)

/-- The checks on the header that both loaders make. -/
def ElfHeader.Accepted : Prop :=
  eh.ident = [0x7f#8, 0x45#8, 0x4c#8, 0x46#8, 2#8] ∧ (eh.type = etExec ∨ eh.type = etDyn) ∧
    eh.machine = emX8664 ∧ phdrSize ≤ eh.phentsize ∧ eh.phnum ≤ 64

instance (eh : ElfHeader) : Decidable eh.Accepted :=
  inferInstanceAs (Decidable (_ ∧ _))

/-- The offset of a program header. -/
def ElfHeader.phAt (i : ℕ) : ℕ := wrap64 (eh.phoff + i * eh.phentsize)

/-- A program header, as it stands in memory. -/
abbrev ElfHeader.prog (m : Mem) (i : ℕ) : ProgHeader := ProgHeader.ofMem m (eh.phAt i)

/-- The end of the program headers: `hdr_total`, `phdrs_end`. -/
def ElfHeader.phEnd : ℕ := eh.phAt eh.phnum

/-- The address the image is loaded at. -/
def ElfHeader.base (hint rand : ℕ) : ℕ :=
  if eh.type = etDyn then if hint ≠ 0 then hint else 0x400000 + (rand &&& 0x1FFFF000) else 0

end

section

variable (ph : ProgHeader)

/-- The protection of a segment, from `p_flags`. -/
def ProgHeader.prot : ℕ :=
  (if ph.flags.testBit 2 then 1 else 0) + (if ph.flags.testBit 1 then 2 else 0) +
    (if ph.flags.testBit 0 then 4 else 0)

/-- A buffer: what it holds, and its size. -/
structure Buffer where
  mem : Mem
  size : ℕ

/-- The header at `off`, if it is of the type wanted: only then more than the type is read. -/
def Buffer.fetch (b : Buffer) (off want : ℕ) : Loader (Option ProgHeader) := do
  touch b.size off 4
  let ph := ProgHeader.ofMem b.mem off
  if ph.type = want then do
    touch b.size off 48
    pure (some ph)
  else pure none

/-! ## Segments -/

/-- `vaddr`, `seg_start` and `seg_end`. -/
def ProgHeader.start (base : ℕ) : ℕ := wrap64 (ph.vaddr + base)

def ProgHeader.firstPage (base : ℕ) : ℕ := ph.start base / 4096 * 4096

def ProgHeader.endPage (base : ℕ) : ℕ :=
  wrap64 (ph.start base + ph.memsz + 0xFFF) / 4096 * 4096

/-- How a loader brings bytes of the file into a page: offset in the file, offset in the page,
number. -/
abbrev Copy := ℕ → ℕ → ℕ → Loader (List Byte)

/-- The part of a segment that goes into the page `va`; `vaddr + p_filesz` has been checked not to
wrap, and `va` is below a multiple of the page size. -/
def pageFill (copy : Copy) (ph : ProgHeader) (vaddr va : ℕ) : Loader (List Byte) :=
  let copyStart := max va vaddr
  let copyEnd := min (va + 4096) (vaddr + ph.filesz)
  if va < vaddr + ph.filesz ∧ copyStart < copyEnd then
    copy (wrap64 (ph.offset + (copyStart - vaddr))) (copyStart - va) (copyEnd - copyStart)
  else pure []

/-- The loop over the pages of a segment. -/
def mapPages (env : MemEnv) (copy : Copy) (ph : ProgHeader) (vaddr : ℕ) : ℕ → ℕ → Loader Unit
  | _, 0 => pure ()
  | va, n + 1 => do
      allocPage env
      let fill ← pageFill copy ph vaddr va
      mapUserPage env ⟨va, ph.prot, fill⟩
      mapPages env copy ph vaddr (va + 4096) n

/-- One segment; the value is the new `brk_end`. -/
def mapSegment (copy : Copy) (fileSize base : ℕ) (ph : ProgHeader) (brkEnd : ℕ) : Loader ℕ :=
  if ph.memsz = 0 then pure brkEnd
  else
    let vaddr := ph.start base
    if ph.filesz > fileSize ∨ wrap64 (vaddr + ph.filesz) < vaddr then fail (-1)
    else do
      mapPages env copy ph vaddr (ph.firstPage base)
        ((ph.endPage base - ph.firstPage base) / 4096)
      pure (max brkEnd (wrap64 (vaddr + ph.memsz)))

/-- `elf_map_segments` and `elf_map_segments_stream`: the headers `i, i + 1, …`, of which `n` are
left, must end below `limit`. -/
def mapSegments (env : MemEnv) (copy : Copy) (b : Buffer) (limit fileSize base : ℕ)
    (eh : ElfHeader) : ℕ → ℕ → ℕ → Loader ℕ
  | _, 0, brkEnd => pure brkEnd
  | i, n + 1, brkEnd =>
    if wrap64 (eh.phAt i + phdrSize) > limit then fail (-1)
    else do
      match ← b.fetch (eh.phAt i) ptLoad with
      | none => mapSegments env copy b limit fileSize base eh (i + 1) n brkEnd
      | some ph => do
          let brkEnd ← mapSegment env copy fileSize base ph brkEnd
          mapSegments env copy b limit fileSize base eh (i + 1) n brkEnd

/-- The scan for `PT_INTERP`: it ends at a header that reaches beyond `limit`. -/
def scanInterp (b : Buffer) (limit : ℕ) (eh : ElfHeader) : ℕ → ℕ → Loader (Option ProgHeader)
  | _, 0 => pure none
  | i, n + 1 =>
    if wrap64 (eh.phAt i + phdrSize) > limit then pure none
    else do
      match ← b.fetch (eh.phAt i) ptInterp with
      | some ph => pure (some ph)
      | none => scanInterp b limit eh (i + 1) n

/-- The search for the segment that holds the program headers (`AT_PHDR`). -/
def findPhdr (b : Buffer) (eh : ElfHeader) (base : ℕ) : ℕ → ℕ → Loader ℕ
  | _, 0 => pure 0
  | i, n + 1 => do
      match ← b.fetch (eh.phAt i) ptLoad with
      | none => findPhdr b eh base (i + 1) n
      | some ph =>
        if ph.offset ≤ eh.phoff ∧ eh.phoff < wrap64 (ph.offset + ph.filesz) then
          pure (wrap64 (base + ph.vaddr + (eh.phoff - ph.offset)))
        else findPhdr b eh base (i + 1) n

/-! ## The loaders -/

/-- `elf_info_t`, as far as the loaders fill it from the file. -/
structure LoadInfo where
  interp : List Byte
  progPhdr : ℕ
  progPhent : ℕ
  progPhnum : ℕ
  progEntry : ℕ
  brk : ℕ
  loadBase : ℕ

/-- `sizeof(info->interp)`, `sizeof(interp_path)`. -/
def pathSize : ℕ := 256

/-- The length of the interpreter's path that is read. -/
def ProgHeader.pathLen : ℕ := min ph.filesz (pathSize - 1)

end

/-- The end of both loaders: segments, `AT_PHDR` and the record. -/
def loadImage (copy : Copy) (b : Buffer) (limit fileSize base : ℕ) (eh : ElfHeader)
    (interp : List Byte) : Loader LoadInfo := do
  let brkEnd ← mapSegments env copy b limit fileSize base eh 0 eh.phnum 0
  let phdr ← findPhdr b eh base 0 eh.phnum
  pure {
    interp
    progPhdr := phdr
    progPhent := eh.phentsize
    progPhnum := eh.phnum
    progEntry := wrap64 (base + eh.entry)
    -- a `brk_end` of 0 is returned as 1
    brk := wrap64 ((if brkEnd = 0 then 1 else brkEnd) + 0xFFF) / 4096 * 4096
    loadBase := base }

/-- `kmemcpy` from the buffer, if the end lies inside; otherwise the page stays as it is. -/
def copyBuffer (b : Buffer) : Copy := fun fileOff pageOff n =>
  if wrap64 (fileOff + n) ≤ b.size then do
    touch b.size fileOff n
    touch 4096 pageOff n
    pure (read b.mem fileOff n)
  else pure []

/-- The interpreter's path from the buffer. -/
def interpBuffer (b : Buffer) : Option ProgHeader → Loader (List Byte)
  | none => pure []
  | some ph =>
    if wrap64 (ph.offset + ph.pathLen) ≤ b.size then do
      touch b.size ph.offset ph.pathLen
      touch pathSize 0 ph.pathLen
      touch pathSize ph.pathLen 1
      pure (read b.mem ph.offset ph.pathLen)
    else pure []

/-- `elf_load_ex`. -/
def elfLoadEx (b : Buffer) (hint rand : ℕ) : Loader LoadInfo :=
  if b.size < ehdrSize then fail (-1)
  else do
    touch b.size 0 ehdrSize
    let eh := ElfHeader.ofMem b.mem
    if ¬eh.Accepted ∨ eh.phEnd > b.size then fail (-1)
    else do
      let ph ← scanInterp b b.size eh 0 eh.phnum
      let interp ← interpBuffer b ph
      loadImage env (copyBuffer b) b b.size b.size (eh.base hint rand) eh interp

end

section Stream

variable {file : Mem} {len : ℕ}

/-- A call of the reader into a page, which must deliver all. -/
def copyStream (rd : FileReader file len) : Copy := fun fileOff pageOff n => do
  let r ← rd.call fileOff n
  touch 4096 pageOff r.bytes.length
  if r.rc < n then fail (-1) else pure r.bytes

/-- The interpreter's path through the reader. -/
def interpStream (rd : FileReader file len) : Option ProgHeader → Loader (List Byte)
  | none => pure []
  | some ph => do
      let r ← rd.call ph.offset ph.pathLen
      touch pathSize 0 r.bytes.length
      if r.rc < ph.pathLen then pure []
      else do
        touch pathSize ph.pathLen 1
        pure r.bytes

/-- The program headers are read behind the header: the page, with what was stored in it.  The
length is an unsigned difference, and compared as an `int`. -/
def readHeaders (rd : FileReader file len) (eh : ElfHeader) (page : Mem) : Loader Mem :=
  let readLen := wrap64 (eh.phEnd + 2 ^ 64 - ehdrSize)
  if eh.phoff > 0 ∧ readLen > 0 then do
    let r ← rd.call ehdrSize readLen
    touch 4096 ehdrSize r.bytes.length
    if r.rc < (BitVec.ofNat 32 readLen).toInt then fail (-1)
    else pure (write page ehdrSize r.bytes)
  else pure page

/-- The rest of `elf_load_ex_stream`, with the headers in the page. -/
def loadFromPage (env : MemEnv) (rd : FileReader file len) (hint rand : ℕ) (eh : ElfHeader)
    (page : Mem) : Loader LoadInfo := do
  let ph ← scanInterp ⟨page, 4096⟩ eh.phEnd eh 0 eh.phnum
  let interp ← interpStream rd ph
  loadImage env (copyStream rd) ⟨page, 4096⟩ eh.phEnd len (eh.base hint rand) eh interp

/-- `elf_load_ex_stream`; the header page is zeroed by the allocator. -/
def elfLoadExStream (env : MemEnv) (rd : FileReader file len) (hint rand : ℕ) :
    Loader LoadInfo := do
  allocPage env
  let r ← rd.call 0 ehdrSize
  touch 4096 0 r.bytes.length
  if r.rc < ehdrSize then fail (-1)
  else
    let page := write (fun _ => 0) 0 r.bytes
    let eh := ElfHeader.ofMem page
    if ¬eh.Accepted ∨ eh.phEnd > 4096 then fail (-1)
    else do
      let page ← readHeaders rd eh page
      loadFromPage env rd hint rand eh page

/-! ## `do_execve_kpath` -/

/-- `sizeof(hdr_buf)`, `sizeof(ihdr)`. -/
def hdrSize : ℕ := ehdrSize + 64 * phdrSize

def enoexec : ℤ := -8
def eio : ℤ := -5

section

variable (rd : FileReader file len)

/-- A read into `hdr_buf`; only on ext4 the result is looked at. -/
def readHdrBuf (ext4 : Bool) (hdr : Mem) (off n : ℕ) : Loader Mem := do
  let r ← rd.call off n
  touch hdrSize off r.bytes.length
  if ext4 ∧ r.rc < n then fail eio else pure (write hdr off r.bytes)

/-- The interpreter's path is read, from `hdr_buf` or from the file. -/
def readPath (hdr : Mem) (phdrsEnd : ℕ) (ph : ProgHeader) : Loader (List Byte) :=
  if wrap64 (ph.offset + ph.pathLen) ≤ phdrsEnd then do
    touch hdrSize ph.offset ph.pathLen
    touch pathSize 0 ph.pathLen
    pure (read hdr ph.offset ph.pathLen)
  else do
    let r ← rd.call ph.offset ph.pathLen
    touch pathSize 0 r.bytes.length
    pure r.bytes

/-- `interp_path`, if there is an interpreter. -/
def interpPath (hdr : Mem) (phdrsEnd : ℕ) : Option ProgHeader → Loader (Option (List Byte))
  | none => pure none
  | some ph => do
      let path ← readPath rd hdr phdrsEnd ph
      touch pathSize ph.pathLen 1
      pure (some path)

/-- The header and the program headers are read into `hdr_buf`, which holds `hdr` before. -/
def fillHdrBuf (ext4 : Bool) (hdr : Mem) : Loader Mem :=
  if len < ehdrSize then fail enoexec
  else do
    let hdr ← readHdrBuf rd ext4 hdr 0 ehdrSize
    let eh := ElfHeader.ofMem hdr
    if eh.phnum > 64 ∨ eh.phEnd > hdrSize ∨ eh.phEnd > len then fail enoexec
    else if eh.phEnd > ehdrSize then readHdrBuf rd ext4 hdr ehdrSize (eh.phEnd - ehdrSize)
    else pure hdr

/-- What the scan leaves: `hdr_buf`, `phdrs_end` and the interpreter's path, if there is one. -/
structure HeaderScan where
  hdr : Mem
  phdrsEnd : ℕ
  interp : Option (List Byte)

/-- The header of the interpreter's path in `hdr_buf`. -/
def findInterp (hdr : Mem) (eh : ElfHeader) : Loader (Option ProgHeader) :=
  if eh.type = etDyn ∨ eh.type = etExec then
    scanInterp ⟨hdr, hdrSize⟩ eh.phEnd eh 0 (min eh.phnum 64)
  else pure none

/-- The headers are read and looked through for the interpreter. -/
def scanHeaders (ext4 : Bool) (hdr : Mem) : Loader HeaderScan := do
  let hdr ← fillHdrBuf rd ext4 hdr
  let eh := ElfHeader.ofMem hdr
  let ph ← findInterp hdr eh
  let interp ← interpPath rd hdr eh.phEnd ph
  pure ⟨hdr, eh.phEnd, interp⟩

end

end Stream

/-- An area of the address space: first address, end and protection. -/
structure ImageArea where
  start : ℕ
  stop : ℕ
  prot : ℕ

/-- The loop of `create_elf_vmas`: no offset is checked. -/
def createAreas (b : Buffer) (eh : ElfHeader) (base : ℕ) : ℕ → ℕ → Loader (List ImageArea)
  | _, 0 => pure []
  | i, n + 1 => do
      match ← b.fetch (eh.phAt i) ptLoad with
      | none => createAreas b eh base (i + 1) n
      | some ph =>
        if ph.memsz = 0 then createAreas b eh base (i + 1) n
        else do
          let areas ← createAreas b eh base (i + 1) n
          pure (⟨ph.firstPage base, ph.endPage base, ph.prot⟩ :: areas)

/-- `create_elf_vmas`. -/
def createElfVmas (b : Buffer) (elfLen base : ℕ) : Loader (List ImageArea) :=
  if elfLen < 64 then pure []
  else do
    touch b.size 32 26
    let eh := ElfHeader.ofMem b.mem
    createAreas b eh base 0 eh.phnum

end CosmoRT.Proc
