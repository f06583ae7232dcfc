import FCMalloc.Library.ByteMemory
import FCMalloc.Library.LinkedChain
import FCMalloc.MmapManager

/-!
# FCMalloc.MemoryLinkedList

The block header of `memory_linked_list.hpp` in byte memory, and the carving loop
of `allocateMemoryLinkedList`.

A `MemoryLinkedList *` is the address of a 48-byte header of six words. A field is
read and written as a little-endian word, so a write to one field leaves the other
fields of the header, and every header apart from it, alone by byte arithmetic. The
loop is proved with one invariant, `Carved`, which says what the first `i` blocks
look like; `carve_spec` is its last instance.

The loop counter is an `unsigned int` and the count a `size_t`: `carveLoop` returns
`none` for a loop that has not ended within its fuel, and `carve` gives it one test
more than the counter has values.
-/

namespace FCMalloc

open ByteMemory

/-- `SIGNATURE`. -/
def signature : Nat := 0xDEADC0DE

/-- The members of `MemoryLinkedList`. -/
inductive Field
  | dummySpace
  | core
  | coreN
  | size
  | next
  | bodyAddr
  deriving DecidableEq, Repr

/-- The offset of a member. -/
def Field.offset : Field → Nat
  | dummySpace => 0
  | core => 8
  | coreN => 16
  | size => 24
  | next => 32
  | bodyAddr => 40

/-- `sizeof(MemoryLinkedList)`. -/
def headerSize : Nat := 48

/-- `GetHeaderSize`. -/
def getHeaderSize : Nat := align headerSize 16

/-- The member `f` of the header at `m`. -/
def readField (mem : Memory) (m : Nat) (f : Field) : Nat := readLE mem (m + f.offset) 8

/-- Assign the member `f` of the header at `m`. -/
def writeField (mem : Memory) (m : Nat) (f : Field) (v : Nat) : Memory :=
  writeLE mem (m + f.offset) 8 v

/-- `(MemoryLinkedList *)((uintptr_t)ptr - sizeof(MemoryLinkedList))`. -/
def headerOf (ptr : Nat) : Nat := u64 (ptr + (2 ^ 64 - headerSize))

theorem headerOf_body {m : Nat} (h : m < 2 ^ 64) : headerOf (m + headerSize) = m := by
  have hsum : m + headerSize + (2 ^ 64 - headerSize) = m + 2 ^ 64 := by
    unfold headerSize
    omega
  rw [headerOf, hsum, u64, Nat.add_mod_right, Nat.mod_eq_of_lt h]

/-! ### Fields -/

variable {mem mem' : Memory} {m m' v x : Nat} {f g : Field}

theorem Field.offset_le (f : Field) : f.offset + 8 ≤ headerSize := by
  cases f <;> decide

/-- Members do not overlap. -/
theorem Field.offset_apart (h : f ≠ g) : f.offset + 8 ≤ g.offset ∨ g.offset + 8 ≤ f.offset := by
  revert h
  cases f <;> cases g <;> decide

theorem readField_writeField_self (hv : v < 2 ^ 64) :
    readField (writeField mem m f v) m f = v :=
  readLE_writeLE_of_lt (by omega)

theorem readField_writeField_of_ne (h : f ≠ g) :
    readField (writeField mem m f v) m g = readField mem m g := by
  have := Field.offset_apart h
  exact readLE_writeLE_of_disjoint (by omega)

theorem writeField_of_outside (h : x < m ∨ m + headerSize ≤ x) :
    writeField mem m f v x = mem x := by
  have := f.offset_le
  exact writeLE_of_outside (by omega)

/-- A header is read off its own 48 bytes. -/
theorem readField_congr (h : ∀ x, m ≤ x → x < m + headerSize → mem' x = mem x) :
    readField mem' m f = readField mem m f := by
  have := f.offset_le
  exact readLE_congr fun x _ _ => h x (by omega) (by omega)

theorem readField_writeField_of_apart (h : m + headerSize ≤ m' ∨ m' + headerSize ≤ m) :
    readField (writeField mem m f v) m' g = readField mem m' g :=
  readField_congr fun _ _ _ => writeField_of_outside (by omega)

/-! ### Header initialisation -/

/-- `MemoryLinkedList::Init`. -/
def initHeader (mem : Memory) (m numCores : Nat) : Memory :=
  let mem := writeField mem m .dummySpace signature
  let mem := writeField mem m .coreN numCores
  let mem := writeField mem m .core (2 ^ 64 - 1)
  let mem := writeField mem m .size 0
  let mem := writeField mem m .next 0
  writeField mem m .bodyAddr 0

/-- One block as it was carved: the address of its header, and what `SetCore` and
`SetSize` stored there. A history record; the program keeps only the header. -/
structure Block where
  addr : Nat
  core : Nat
  size : Nat
  deriving DecidableEq, Repr

namespace Block

/-- The address the client is given. -/
def body (b : Block) : Nat := b.addr + headerSize

/-- Header and body. -/
def extent (b : Block) : Extent := ⟨b.addr, headerSize + b.size⟩

end Block

/-- The header of block `b` is intact in `mem`: every member but `next_` holds what
carving stored. -/
structure Headed (c : Config) (mem : Memory) (b : Block) : Prop where
  dummySpace : readField mem b.addr .dummySpace = signature
  core : readField mem b.addr .core = b.core
  coreN : readField mem b.addr .coreN = c.coreN
  size : readField mem b.addr .size = b.size
  bodyAddr : readField mem b.addr .bodyAddr = b.body

theorem Headed.congr {c : Config} {b : Block} (h : Headed c mem b)
    (hag : ∀ f, f ≠ .next → readField mem' b.addr f = readField mem b.addr f) :
    Headed c mem' b where
  dummySpace := (hag _ (by decide)).trans h.dummySpace
  core := (hag _ (by decide)).trans h.core
  coreN := (hag _ (by decide)).trans h.coreN
  size := (hag _ (by decide)).trans h.size
  bodyAddr := (hag _ (by decide)).trans h.bodyAddr

/-- The header one round of the carving loop writes. -/
def writeHeader (mem : Memory) (m numCores core bodySize : Nat) : Memory :=
  let mem := initHeader mem m numCores
  let mem := writeField mem m .core core
  let mem := writeField mem m .size bodySize
  writeField mem m .bodyAddr (u64 (m + getHeaderSize))

theorem writeHeader_of_outside {numCores core bodySize : Nat}
    (h : x < m ∨ m + headerSize ≤ x) :
    writeHeader mem m numCores core bodySize x = mem x := by
  simp only [writeHeader, initHeader, writeField_of_outside h]

theorem writeHeader_next {numCores core bodySize : Nat} :
    readField (writeHeader mem m numCores core bodySize) m .next = 0 := by
  simp only [writeHeader, initHeader]
  repeat rw [readField_writeField_of_ne (by decide)]
  exact readField_writeField_self (by decide)

theorem writeHeader_headed {c : Config} {core bodySize : Nat} (hm : m + headerSize < 2 ^ 64)
    (hcore : core < c.coreN) (hsize : bodySize < 2 ^ 64) :
    Headed c (writeHeader mem m c.coreN core bodySize) ⟨m, core, bodySize⟩ := by
  have hint := c.coreN_lt
  have hbody : u64 (m + getHeaderSize) = m + headerSize := u64_of_lt hm
  constructor <;> simp only [writeHeader, initHeader]
  case dummySpace =>
    repeat rw [readField_writeField_of_ne (by decide)]
    exact readField_writeField_self (by decide)
  case core =>
    repeat rw [readField_writeField_of_ne (by decide)]
    exact readField_writeField_self (by omega)
  case coreN =>
    repeat rw [readField_writeField_of_ne (by decide)]
    exact readField_writeField_self (by omega)
  case size =>
    rw [readField_writeField_of_ne (by decide)]
    exact readField_writeField_self hsize
  case bodyAddr =>
    rw [hbody]
    exact readField_writeField_self hm

/-! ### The carving loop -/

/-- The variables of the loop, with the blocks carved so far. -/
structure Carving where
  mem : Memory
  buffer : Nat
  head : Nat
  pre : Nat
  carved : List Block

/-- One round. -/
def carveOne (numCores core bodySize totalSize : Nat) (s : Carving) : Carving :=
  let m := s.buffer
  let mem := writeHeader s.mem m numCores core bodySize
  { mem := if s.pre ≠ 0 then writeField mem s.pre .next m else mem
    buffer := u64 (m + totalSize)
    head := if s.head = 0 then m else s.head
    pre := m
    carved := s.carved ++ [⟨m, core, bodySize⟩] }

/-- The loop from counter value `i`, or `none` if it has not ended after `fuel` tests. -/
def carveLoop (numCores core bodySize totalSize n : Nat) :
    (fuel : Nat) → (i : Nat) → Carving → Option Carving
  | 0, _, _ => none
  | fuel + 1, i, s =>
      if i < n then
        carveLoop numCores core bodySize totalSize n fuel (u32 (i + 1))
          (carveOne numCores core bodySize totalSize s)
      else some s

/-- `MemoryLinkedListResult`. -/
structure MemoryLinkedListResult where
  mmapAddr : Nat
  head : Nat
  last : Nat

/-- `size` after the round-up at the top of `allocateMemoryLinkedList`. -/
def bodySize (size : Nat) : Nat :=
  let size := roundupPowerof2 size
  if size < 8 then 8 else size

/-- `totalSize`, the stride from block to block. -/
def totalSize (size : Nat) : Nat := align (u64 (bodySize size + align headerSize 16)) 16

/-- `mmapSize`, what is asked of the arena for `n` blocks. -/
def mmapSize (c : Config) (size n : Nat) : Nat := align (u64 (totalSize size * n)) c.pageSize

/-- `allocateMemoryLinkedList` from the return of `mm.Malloc` on, which gave `p`. -/
@[irreducible] def carve (c : Config) (mem : Memory) (core size n p : Nat) :
    Option (MemoryLinkedListResult × Memory × List Block) :=
  (carveLoop c.coreN core (bodySize size) (totalSize size) n (2 ^ 32 + 1) 0
    ⟨mem, p, 0, 0, []⟩).map fun s => (⟨p, s.head, s.pre⟩, s.mem, s.carved)

/-- The bytes `FirstTouch` clears. -/
def clear (mem : Memory) (touched : List Nat) : Memory :=
  touched.foldl (fun mem a => Function.update mem a 0) mem

theorem clear_of_not_mem {touched : List Nat} (h : x ∉ touched) : clear mem touched x = mem x := by
  induction touched generalizing mem with
  | nil => rfl
  | cons a touched ih =>
      rw [List.mem_cons, not_or] at h
      rw [clear, List.foldl_cons]
      exact (ih h.2).trans (Function.update_of_ne h.1 _ _)

/-! ### What the loop does -/

/-- With a count the counter can reach, the loop is a counted loop. -/
theorem carveLoop_eq {numCores core bodySize totalSize n i fuel : Nat} (hn : n < 2 ^ 32)
    (hi : i ≤ n) (hfuel : n - i < fuel) (s : Carving) :
    carveLoop numCores core bodySize totalSize n fuel i
        (forRange i (fun _ => carveOne numCores core bodySize totalSize) s) =
      some (forRange n (fun _ => carveOne numCores core bodySize totalSize) s) := by
  induction fuel generalizing i with
  | zero => omega
  | succ fuel ih =>
      rw [carveLoop]
      by_cases hlt : i < n
      · have hnext : u32 (i + 1) = i + 1 := Nat.mod_eq_of_lt (by omega)
        rw [if_pos hlt, hnext, ← forRange_succ i (fun _ => carveOne _ _ _ _)]
        exact ih (by omega) (by omega)
      · obtain rfl : i = n := by omega
        rw [if_neg hlt]

/-- A count the counter cannot reach is never carved. -/
theorem carveLoop_diverges {numCores core bodySize totalSize n fuel i : Nat} (hn : 2 ^ 32 ≤ n)
    (hi : i < 2 ^ 32) (s : Carving) :
    carveLoop numCores core bodySize totalSize n fuel i s = none := by
  induction fuel generalizing i s with
  | zero => rfl
  | succ fuel ih =>
      rw [carveLoop, if_pos (by omega)]
      exact ih (Nat.mod_lt _ (by decide)) _

/-- Blocks that do not overlap have their headers apart. -/
theorem headers_apart {l : List Block} (h : l.Pairwise fun b b' => b.extent.Apart b'.extent)
    {b b' : Block} (hb : b ∈ l) (hb' : b' ∈ l) (hne : b.addr ≠ b'.addr) :
    b.addr + headerSize ≤ b'.addr ∨ b'.addr + headerSize ≤ b.addr := by
  have hsymm : Std.Symm fun b b' : Block => b.extent.Apart b'.extent :=
    ⟨fun _ _ => Extent.Apart.symm⟩
  have happart := h.forall hb hb' fun heq => hne (congrArg Block.addr heq)
  rw [Extent.apart_iff] at happart
  simp only [Block.extent] at happart
  unfold headerSize at *
  omega

theorem addr_nodup {l : List Block} (h : l.Pairwise fun b b' => b.extent.Apart b'.extent) :
    (l.map Block.addr).Nodup := by
  refine List.pairwise_map.mpr (h.imp fun {b b'} happart heq => ?_)
  rw [Extent.apart_iff] at happart
  simp only [Block.extent, headerSize] at happart
  omega

/-- The first `i` blocks from address `p` on. -/
def blocksFrom (p stride core size i : Nat) : List Block :=
  (List.range i).map fun j => ⟨p + j * stride, core, size⟩

theorem blocksFrom_succ (p stride core size i : Nat) :
    blocksFrom p stride core size (i + 1) =
      blocksFrom p stride core size i ++ [⟨p + i * stride, core, size⟩] := by
  simp [blocksFrom, List.range_succ]

theorem mem_blocksFrom {p stride core size i : Nat} {b : Block} :
    b ∈ blocksFrom p stride core size i ↔ ∃ j < i, b = ⟨p + j * stride, core, size⟩ := by
  simp [blocksFrom, eq_comm]

/-- Blocks a stride apart that holds them do not overlap. -/
theorem blocksFrom_apart {p stride core size i : Nat} (hstride : headerSize + size ≤ stride) :
    (blocksFrom p stride core size i).Pairwise fun b b' => b.extent.Apart b'.extent := by
  refine List.pairwise_map.mpr (List.pairwise_lt_range.imp fun {j k} hjk => ?_)
  have hle : (j + 1) * stride ≤ k * stride := Nat.mul_le_mul_right stride hjk
  rw [Nat.succ_mul] at hle
  rw [Extent.apart_iff]
  simp only [Block.extent]
  omega

/-- The blocks lie in the first `i` strides. -/
theorem blocksFrom_within {p stride core size i : Nat} {b : Block}
    (hstride : headerSize + size ≤ stride) (hb : b ∈ blocksFrom p stride core size i) :
    b.extent.Within ⟨p, i * stride⟩ := by
  obtain ⟨j, hj, rfl⟩ := mem_blocksFrom.mp hb
  have hle : (j + 1) * stride ≤ i * stride := Nat.mul_le_mul_right stride hj
  rw [Nat.succ_mul] at hle
  simp only [Extent.Within, Block.extent]
  omega

theorem blocksFrom_ne_nil {p stride core size i : Nat} (hi : 0 < i) :
    (blocksFrom p stride core size i).map Block.addr ≠ [] := by
  rw [Ne, List.map_eq_nil_iff, ← List.length_eq_zero_iff, blocksFrom, List.length_map,
    List.length_range]
  exact Nat.ne_of_gt hi

/-- The address of the last of them. -/
theorem blocksFrom_last {p stride core size i : Nat} (hi : 0 < i) :
    ((blocksFrom p stride core size i).map Block.addr).getLastD 0 = p + (i - 1) * stride := by
  obtain ⟨k, rfl⟩ : ∃ k, i = k + 1 := ⟨i - 1, by omega⟩
  rw [blocksFrom_succ, List.map_append]
  simp

/-- The loop invariant: after `i` rounds from address `p` in memory `mem₀`. -/
structure Carved (c : Config) (mem₀ : Memory) (p stride core size i : Nat) (s : Carving) : Prop where
  buffer : s.buffer = p + i * stride
  head : s.head = if i = 0 then 0 else p
  pre : s.pre = if i = 0 then 0 else p + (i - 1) * stride
  carved : s.carved = blocksFrom p stride core size i
  chain : Chain 0 (fun m => readField s.mem m .next) s.head
    ((blocksFrom p stride core size i).map Block.addr)
  headed : ∀ b ∈ blocksFrom p stride core size i, Headed c s.mem b
  outside : ∀ x, x < p ∨ p + i * stride ≤ x → s.mem x = mem₀ x

section Carving

variable {c : Config} {mem₀ : Memory} {p stride core size n i : Nat} {s : Carving}

theorem Carved.start : Carved c mem₀ p stride core size 0 ⟨mem₀, p, 0, 0, []⟩ where
  buffer := by simp
  head := rfl
  pre := rfl
  carved := rfl
  chain := rfl
  headed := by simp [blocksFrom]
  outside _ _ := rfl

/-- A block carved earlier ends before the block carved next. -/
theorem stride_before {j : Nat} (hstride : headerSize + size ≤ stride) (hj : j < i) :
    p + j * stride + (headerSize + size) ≤ p + i * stride := by
  have hle : (j + 1) * stride ≤ i * stride := Nat.mul_le_mul_right stride hj
  rw [Nat.succ_mul] at hle
  omega

theorem Carved.head_eq_zero (hp : 0 < p) (h : Carved c mem₀ p stride core size i s) :
    s.head = 0 ↔ i = 0 := by
  rw [h.head]
  split <;> omega

/-- A round writes the header of block `i`, and the link to it from the block before. -/
theorem Carved.round_mem (hp : 0 < p) (h : Carved c mem₀ p stride core size i s) :
    (carveOne c.coreN core size stride s).mem =
      if i ≠ 0 then
        writeField (writeHeader s.mem (p + i * stride) c.coreN core size) (p + (i - 1) * stride)
          .next (p + i * stride)
      else writeHeader s.mem (p + i * stride) c.coreN core size := by
  have hpre : s.pre ≠ 0 ↔ i ≠ 0 := by
    rw [h.pre]
    split <;> omega
  simp only [carveOne, h.buffer, hpre]
  by_cases hi0 : i = 0
  · simp [hi0]
  · simp [hi0, h.pre]

/-- Outside the blocks before, only the header is written. -/
theorem Carved.round_outside (hp : 0 < p) (hstride : headerSize + size ≤ stride)
    (h : Carved c mem₀ p stride core size i s) {x : Nat} (hx : x < p ∨ p + i * stride ≤ x) :
    (carveOne c.coreN core size stride s).mem x =
      writeHeader s.mem (p + i * stride) c.coreN core size x := by
  rw [h.round_mem hp]
  split
  · have hbefore := stride_before (p := p) hstride (show i - 1 < i by omega)
    have hpos : p ≤ p + (i - 1) * stride := Nat.le_add_right _ _
    exact writeField_of_outside (by omega)
  · rfl

/-- The blocks before keep all members but `next_`. -/
theorem Carved.round_earlier (hp : 0 < p) (hstride : headerSize + size ≤ stride)
    (h : Carved c mem₀ p stride core size i s) {j : Nat} (hj : j < i) {f : Field}
    (hf : f ≠ .next) :
    readField (carveOne c.coreN core size stride s).mem (p + j * stride) f =
      readField s.mem (p + j * stride) f := by
  have hbefore := stride_before (p := p) hstride hj
  have hheader : readField (writeHeader s.mem (p + i * stride) c.coreN core size)
      (p + j * stride) f = readField s.mem (p + j * stride) f :=
    readField_congr fun x _ _ => writeHeader_of_outside (by omega)
  rw [h.round_mem hp]
  split
  · by_cases hlast : j = i - 1
    · rw [hlast, readField_writeField_of_ne (Ne.symm hf), ← hlast, hheader]
    · have hapart := stride_before (p := p) hstride (show j < i - 1 by omega)
      rw [readField_writeField_of_apart (by omega), hheader]
  · exact hheader

/-- The chain gains the new header at its end. -/
theorem Carved.round_chain (hp : 0 < p) (hend : p + i * stride < 2 ^ 64)
    (hstride : headerSize + size ≤ stride) (h : Carved c mem₀ p stride core size i s) :
    Chain 0 (fun m => readField (carveOne c.coreN core size stride s).mem m .next)
      (carveOne c.coreN core size stride s).head
      ((blocksFrom p stride core size (i + 1)).map Block.addr) := by
  have hnext : readField (carveOne c.coreN core size stride s).mem (p + i * stride) .next = 0 :=
    (readField_congr fun x _ _ => h.round_outside hp hstride (by omega)).trans writeHeader_next
  have hnew : Chain 0 (fun a => readField (carveOne c.coreN core size stride s).mem a .next)
      (p + i * stride) [p + i * stride] := ⟨rfl, by omega, hnext⟩
  have hhead := h.head_eq_zero hp
  rw [blocksFrom_succ, List.map_append]
  cases i with
  | zero =>
      have hhead' : (carveOne c.coreN core size stride s).head = p + 0 * stride := by
        simp [carveOne, hhead, h.buffer]
      have hnone : (blocksFrom p stride core size 0).map Block.addr = [] := rfl
      rw [hhead', hnone, List.nil_append]
      exact hnew
  | succ k =>
      have hhead' : (carveOne c.coreN core size stride s).head = s.head := by
        simp [carveOne, hhead]
      have hchain := h.chain
      rw [blocksFrom_succ, List.map_append] at hchain ⊢
      simp only [List.map_cons, List.map_nil] at hchain ⊢
      -- the last block's link is written, and no other
      rw [hhead', List.append_assoc, List.singleton_append]
      refine Chain.link hchain hnew ?_ ?_
      · rw [h.round_mem hp, if_pos (by omega)]
        exact readField_writeField_self hend
      · intro a ha
        obtain ⟨b, hb, rfl⟩ := List.mem_map.mp ha
        obtain ⟨j, hj, rfl⟩ := mem_blocksFrom.mp hb
        have hbefore := stride_before (p := p) hstride (show j < k + 1 by omega)
        have hlast := stride_before (p := p) hstride hj
        dsimp only
        rw [h.round_mem hp, if_pos (by omega), Nat.add_sub_cancel,
          readField_writeField_of_apart (by omega)]
        exact readField_congr fun x _ _ => writeHeader_of_outside (by omega)

/-- **One round** carves block `i`: its header is written behind the blocks carved
so far, and the previous block is linked to it. -/
theorem Carved.round (hp : 0 < p) (hroom : p + n * stride < 2 ^ 64)
    (hstride : headerSize + size ≤ stride) (hcore : core < c.coreN) (hi : i < n)
    (h : Carved c mem₀ p stride core size i s) :
    Carved c mem₀ p stride core size (i + 1) (carveOne c.coreN core size stride s) := by
  have hle : (i + 1) * stride ≤ n * stride := Nat.mul_le_mul_right stride hi
  have hsucc : (i + 1) * stride = i * stride + stride := Nat.succ_mul i stride
  constructor
  case buffer =>
    simp only [carveOne, h.buffer]
    rw [u64_of_lt (by omega)]
    omega
  case head =>
    by_cases hi0 : i = 0
    · simp [carveOne, h.head, h.buffer, hi0]
    · simp [carveOne, h.head, hi0, Nat.ne_of_gt hp]
  case pre => simp [carveOne, h.buffer]
  case carved => simp only [carveOne, h.carved, h.buffer, blocksFrom_succ]
  case headed =>
    intro b hb
    obtain ⟨j, hj, rfl⟩ := mem_blocksFrom.mp hb
    by_cases hji : j = i
    · subst hji
      have hnew : Headed c (writeHeader s.mem (p + j * stride) c.coreN core size)
          ⟨p + j * stride, core, size⟩ := writeHeader_headed (by omega) hcore (by omega)
      exact hnew.congr fun f _ => readField_congr fun x _ _ =>
        h.round_outside hp hstride (by simp only at *; omega)
    · have hold := h.headed _ (mem_blocksFrom.mpr ⟨j, by omega, rfl⟩)
      exact hold.congr fun f hf => h.round_earlier hp hstride (by omega) hf
  case outside =>
    intro x hx
    rw [h.round_outside hp hstride (by omega)]
    exact (writeHeader_of_outside (by omega)).trans (h.outside x (by omega))
  case chain => exact h.round_chain hp (by omega) hstride

/-- **The carving loop** over a range that holds its blocks. -/
theorem carveLoop_spec (mem₀ : Memory) (hp : 0 < p) (hroom : p + n * stride < 2 ^ 64)
    (hstride : headerSize + size ≤ stride) (hcore : core < c.coreN) (hn : n < 2 ^ 32) :
    ∃ s, carveLoop c.coreN core size stride n (2 ^ 32 + 1) 0 ⟨mem₀, p, 0, 0, []⟩ = some s ∧
      Carved c mem₀ p stride core size n s := by
  refine ⟨_, carveLoop_eq (i := 0) hn (Nat.zero_le n) (by omega) _, ?_⟩
  exact forRange_invariant (Carved c mem₀ p stride core size) Carved.start
    fun i hi s hs => hs.round hp hroom hstride hcore hi

end Carving

/-! ### Sizes of a batch -/

section Batch

variable {c : Config} {size n : Nat}

theorem bodySize_le (size : Nat) : 8 ≤ bodySize size ∧ bodySize size ≤ 2 ^ 63 := by
  have hround := roundupPowerof2_le size
  unfold bodySize
  dsimp only
  split <;> omega

/-- The stride holds header and body for every size: no sum in it wraps. -/
theorem totalSize_spec (size : Nat) : headerSize + bodySize size ≤ totalSize size ∧
    totalSize size < bodySize size + 64 ∧ 16 ∣ totalSize size := by
  obtain ⟨-, hle⟩ := bodySize_le size
  have hheader : align headerSize 16 = 48 := rfl
  have hsum : u64 (bodySize size + align headerSize 16) = bodySize size + 48 := by
    rw [hheader]
    exact u64_of_lt (by omega)
  obtain ⟨hge, hlt, hdvd⟩ := align_spec (v := bodySize size + 48) (n := 16) (by decide) (by omega)
  rw [totalSize, hsum]
  refine ⟨?_, ?_, hdvd⟩
  · unfold headerSize
    omega
  · omega

/-- What the size arithmetic gives when nothing wraps: for a body size of `2 ^ i`, a
stride that holds header and body, and room for `n` blocks in whole pages. -/
structure BatchSizes (c : Config) (size n : Nat) : Prop where
  class_ge : 3 ≤ logarithm2 size
  class_le : logarithm2 size ≤ 62
  body : bodySize size = 2 ^ logarithm2 size
  stride : headerSize + bodySize size ≤ totalSize size
  stride_dvd : 16 ∣ totalSize size
  room : n * totalSize size ≤ mmapSize c size n
  pages : c.pageSize ∣ mmapSize c size n
  fits : mmapSize c size n + c.pageSize < 2 ^ 64

/-- The blocks of a batch lie in the range that is asked for. -/
theorem BatchSizes.within {b : Block} (h : BatchSizes c size n)
    (hb : b ∈ blocksFrom p (totalSize size) core (bodySize size) n) :
    b.extent.Within ⟨p, mmapSize c size n⟩ := by
  have hspan : (⟨p, n * totalSize size⟩ : Extent).Within ⟨p, mmapSize c size n⟩ :=
    ⟨Nat.le_refl _, Nat.add_le_add_left h.room p⟩
  exact (blocksFrom_within h.stride hb).trans hspan

/-- The size table's bound keeps every product, sum and round-up below `2 ^ 63`. -/
theorem batchSizes (hsize : 0 < size) (hn : 0 < n)
    (hbound : n * (2 ^ logarithm2 size + 64) + c.pageSize < 2 ^ 63) : BatchSizes c size n := by
  have hone : 2 ^ logarithm2 size + 64 ≤ n * (2 ^ logarithm2 size + 64) :=
    Nat.le_mul_of_pos_left _ hn
  have hclass : logarithm2 size ≤ 62 := by
    by_contra hbig
    have : 2 ^ 63 ≤ 2 ^ logarithm2 size := Nat.pow_le_pow_right Nat.two_pos (by omega)
    omega
  have hbody : bodySize size = 2 ^ logarithm2 size := max_roundupPowerof2 hsize hclass
  obtain ⟨hstride, hlt, hdvd⟩ := totalSize_spec size
  rw [hbody] at hlt
  have hle : n * totalSize size ≤ n * (2 ^ logarithm2 size + 64) :=
    Nat.mul_le_mul_left n (by omega)
  have hprod : u64 (totalSize size * n) = n * totalSize size := by
    rw [Nat.mul_comm]
    exact u64_of_lt (by omega)
  have hpage := c.pageSize_lt
  obtain ⟨hroom, hend, hpages⟩ :=
    align_spec (v := n * totalSize size) c.pageSize_pos (by omega)
  have hmmap : mmapSize c size n = align (n * totalSize size) c.pageSize := by rw [mmapSize, hprod]
  constructor
  case class_ge => exact three_le_logarithm2 size
  case class_le => exact hclass
  case body => exact hbody
  case stride => exact hstride
  case stride_dvd => exact hdvd
  case room => rwa [hmmap]
  case pages => rwa [hmmap]
  case fits =>
    rw [hmmap]
    omega

/-- A batch of no blocks asks for no memory and carves nothing. -/
theorem mmapSize_zero : mmapSize c size 0 = 0 := by
  have hpage := c.pageSize_lt
  have hpos := c.pageSize_pos
  have hsum : u64 (0 + c.pageSize - 1) = 0 + c.pageSize - 1 := u64_of_lt (by omega)
  rw [mmapSize, Nat.mul_zero, show u64 0 = 0 from rfl, align, hsum,
    Nat.div_eq_of_lt (by omega), Nat.zero_mul]

/-- The table's own batches satisfy the bound. -/
theorem Config.TableFits.batchSizes (h : c.TableFits) (hsize : 0 < size)
    (hn : 0 < c.batch (sizeClass size)) : BatchSizes c size (c.batch (sizeClass size)) := by
  have hbatch := h.batch_eq (sizeClass size)
  have hbound := h.bounded (sizeClass size) (by omega)
  refine FCMalloc.batchSizes hsize hn ?_
  rw [hbatch.1]
  exact hbound

variable {mem : Memory} {core p : Nat}

/-- **Carving** `n` blocks from a range that holds them: the result is the chain of the
new blocks, whose headers are written inside the range and nowhere else. -/
theorem carve_spec (size : Nat) (mem : Memory) (hp : 0 < p)
    (hroom : p + n * totalSize size < 2 ^ 64) (hcore : core < c.coreN) (hn : n < 2 ^ 32) :
    ∃ s, carve c mem core size n p = some (⟨p, s.head, s.pre⟩, s.mem, s.carved) ∧
      Carved c mem p (totalSize size) core (bodySize size) n s := by
  obtain ⟨s, hrun, hcarved⟩ := carveLoop_spec mem hp hroom (totalSize_spec size).1 hcore hn
  refine ⟨s, ?_, hcarved⟩
  unfold carve
  rw [hrun]
  rfl

/-- Carving does not return just if the counter cannot reach the count. -/
theorem carve_eq_none_iff : carve c mem core size n p = none ↔ 2 ^ 32 ≤ n := by
  unfold carve
  rw [Option.map_eq_none_iff]
  constructor
  · intro hnone
    by_contra hn
    have hrun : carveLoop c.coreN core (bodySize size) (totalSize size) n (2 ^ 32 + 1) 0
        ⟨mem, p, 0, 0, []⟩ = some _ :=
      carveLoop_eq (i := 0) (Nat.not_le.mp hn) (Nat.zero_le n) (by omega) _
    rw [hnone] at hrun
    exact absurd hrun (by simp)
  · intro hn
    exact carveLoop_diverges hn (by decide) _

theorem carve_zero : carve c mem core size 0 p = some (⟨p, 0, 0⟩, mem, []) := by
  unfold carve
  rw [carveLoop, if_neg (Nat.lt_irrefl 0)]
  rfl

end Batch

end FCMalloc
