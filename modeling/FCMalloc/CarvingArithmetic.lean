import FCMalloc.MemoryLinkedList

/-!
# FCMalloc.CarvingArithmetic

The size arithmetic of `allocateMemoryLinkedList`, for every size and every count.

The rounded size, the stride, the product of stride and count and its round-up to pages are
all taken modulo `2 ^ 64`, the count is an `int` of the size table made a `size_t`, and what
`mm.Malloc` returns is used without a test. `carve_carves_iff` says which sizes, counts and
results survive this: a positive count, a size up to `2 ^ 63`, a product that still fits with
one page, and a request that was served. Only the sum of body and header is ever checked, and
that one never wraps (`totalSize_spec`).
-/

namespace FCMalloc

open ByteMemory

/-- The address of node `j` of a batch at `p`. -/
def nodeAddr (size p j : Nat) : Nat := p + j * totalSize size

/-- Header and body of the node at `m`, as its header has it. -/
def nodeExtent (mem : Memory) (m : Nat) : Extent := ⟨m, headerSize + readField mem m .size⟩

/-- No sum, product or round-up of a batch of `n` blocks at `p` wraps. -/
structure NoWrap (c : Config) (size n p : Nat) : Prop where
  round : 2 ^ Nat.clog 2 size < 2 ^ 64
  header : bodySize size + align headerSize 16 < 2 ^ 64
  stride : bodySize size + align headerSize 16 + 16 ≤ 2 ^ 64
  product : totalSize size * n < 2 ^ 64
  pages : totalSize size * n + c.pageSize ≤ 2 ^ 64
  buffer : ∀ j ≤ n, nodeAddr size p j < 2 ^ 64

/-- The result `r` is the chain of `n` good nodes in `[p, p + mmapSize)`. -/
structure CarvedChain (c : Config) (mem : Memory) (core size n p : Nat)
    (r : MemoryLinkedListResult) : Prop where
  head : r.head = p
  last : r.last = nodeAddr size p (n - 1)
  chain : Chain 0 (fun m => readField mem m .next) r.head ((List.range n).map (nodeAddr size p))
  size_le : ∀ j < n, size ≤ readField mem (nodeAddr size p j) .size
  core_eq : ∀ j < n, readField mem (nodeAddr size p j) .core = core
  body : ∀ j < n, readField mem (nodeAddr size p j) .bodyAddr = nodeAddr size p j + headerSize
  aligned : ∀ j < n, 16 ∣ readField mem (nodeAddr size p j) .bodyAddr
  inside : ∀ j < n, (nodeExtent mem (nodeAddr size p j)).Within ⟨p, mmapSize c size n⟩
  apart : ∀ j < n, ∀ k < n, j ≠ k →
    (nodeExtent mem (nodeAddr size p j)).Apart (nodeExtent mem (nodeAddr size p k))

/-- `allocateMemoryLinkedList` ends, nothing in it wraps, and it either wrote no header or
returns the chain it was asked for. -/
def Carves (c : Config) (mem : Memory) (core size n p : Nat) : Prop :=
  ∃ r mem' carved, carve c mem core size n p = some (r, mem', carved) ∧ NoWrap c size n p ∧
    (carved = [] ∧ mem' = mem ∨ CarvedChain c mem' core size n p r)

/-- What `mm.Malloc` returns for `k` bytes: null, or an aligned range of that many. -/
def Usable (p k : Nat) : Prop := p = 0 ∨ p + k < 2 ^ 64 ∧ 16 ∣ p

variable {c : Config} {mem : Memory} {core size n p : Nat}

/-- The body is as large as the request, as long as the round-up does not wrap. -/
theorem le_bodySize (hsize : 0 < size) (hle : size ≤ 2 ^ 63) : size ≤ bodySize size := by
  have hround : size ≤ roundupPowerof2 size := by
    rw [roundupPowerof2_eq hsize hle]
    exact Nat.le_pow_clog Nat.one_lt_two size
  unfold bodySize
  dsimp only
  split <;> omega

/-- The next power of two fits a word just up to `2 ^ 63`. -/
theorem round_fits_iff : 2 ^ Nat.clog 2 size < 2 ^ 64 ↔ size ≤ 2 ^ 63 := by
  rw [Nat.pow_lt_pow_iff_right Nat.one_lt_two, ← Nat.clog_le_iff_le_pow Nat.one_lt_two]
  exact Nat.lt_succ_iff

/-- Without wrap-around the pages asked for hold all strides. -/
theorem room_of_pages (hpages : totalSize size * n + c.pageSize ≤ 2 ^ 64) :
    n * totalSize size ≤ mmapSize c size n := by
  have hpage := c.pageSize_pos
  have hprod : u64 (totalSize size * n) = totalSize size * n := u64_of_lt (by omega)
  obtain ⟨hle, -, -⟩ := align_spec (v := totalSize size * n) c.pageSize_pos hpages
  rw [mmapSize, hprod, Nat.mul_comm n]
  exact hle

/-- Nothing wraps once the round-up, the product and the range do not. -/
theorem noWrap_of_fits (hsize : size ≤ 2 ^ 63)
    (hpages : totalSize size * n + c.pageSize ≤ 2 ^ 64)
    (hroom : p + n * totalSize size < 2 ^ 64) : NoWrap c size n p := by
  have hpage := c.pageSize_pos
  have hbody := (bodySize_le size).2
  have hheader : align headerSize 16 = 48 := rfl
  constructor
  case round => exact round_fits_iff.mpr hsize
  case header => omega
  case stride => omega
  case product => omega
  case pages => exact hpages
  case buffer =>
    intro j hj
    have hle : j * totalSize size ≤ n * totalSize size := Nat.mul_le_mul_right _ hj
    unfold nodeAddr
    omega

/-- **The loop's result** in a range that holds the batch. -/
theorem Carved.carvedChain {s : Carving} (h : Carved c mem p (totalSize size) core (bodySize size) n s)
    (hn : 0 < n) (hsize : size ≤ bodySize size) (halign : 16 ∣ p)
    (hroom : n * totalSize size ≤ mmapSize c size n) :
    CarvedChain c s.mem core size n p ⟨p, s.head, s.pre⟩ := by
  obtain ⟨hstride, -, hdvd⟩ := totalSize_spec size
  have hheaded : ∀ j < n, Headed c s.mem ⟨nodeAddr size p j, core, bodySize size⟩ := fun j hj =>
    h.headed _ (mem_blocksFrom.mpr ⟨j, hj, rfl⟩)
  have hextent : ∀ j < n, nodeExtent s.mem (nodeAddr size p j) =
      ⟨nodeAddr size p j, headerSize + bodySize size⟩ := by
    intro j hj
    rw [nodeExtent, (hheaded j hj).size]
  have hnodes : (blocksFrom p (totalSize size) core (bodySize size) n).map Block.addr =
      (List.range n).map (nodeAddr size p) := by
    rw [blocksFrom, List.map_map]
    rfl
  constructor
  case head => rw [h.head, if_neg (Nat.ne_of_gt hn)]
  case last => exact h.pre.trans (if_neg (Nat.ne_of_gt hn))
  case chain =>
    rw [← hnodes]
    exact h.chain
  case size_le =>
    intro j hj
    rw [(hheaded j hj).size]
    exact hsize
  case core_eq => exact fun j hj => (hheaded j hj).core
  case body => exact fun j hj => (hheaded j hj).bodyAddr
  case aligned =>
    intro j hj
    rw [(hheaded j hj).bodyAddr]
    exact Nat.dvd_add (Nat.dvd_add halign (hdvd.mul_left j)) (by decide)
  case inside =>
    intro j hj
    have hbefore := stride_before (p := p) hstride hj
    rw [hextent j hj]
    simp only [Extent.Within, nodeAddr]
    omega
  case apart =>
    intro j hj k hk hne
    rw [hextent j hj, hextent k hk, Extent.apart_iff]
    simp only [nodeAddr]
    cases Nat.lt_or_gt_of_ne hne with
    | inl hlt =>
        have hbefore := stride_before (p := p) hstride hlt
        omega
    | inr hgt =>
        have hbefore := stride_before (p := p) hstride hgt
        omega

/-- Every round writes a header. -/
theorem length_carved {s : Carving} (rounds : Nat) :
    (forRange rounds (fun _ => carveOne c.coreN core size n) s).carved.length =
      s.carved.length + rounds := by
  induction rounds with
  | zero => rfl
  | succ rounds ih =>
      rw [forRange_succ, carveOne, List.length_append, ih, List.length_singleton, Nat.add_assoc]

/-- A batch of at least one block never fails without writing. -/
theorem carved_ne_nil {r : MemoryLinkedListResult} {mem' : Memory} {carved : List Block}
    (hn : 0 < n) (hcarve : carve c mem core size n p = some (r, mem', carved)) : carved ≠ [] := by
  have hcount : n < 2 ^ 32 := by
    by_contra hbig
    rw [carve_eq_none_iff.mpr (Nat.not_lt.mp hbig)] at hcarve
    exact absurd hcarve (by simp)
  have hrun : carveLoop c.coreN core (bodySize size) (totalSize size) n (2 ^ 32 + 1) 0
      ⟨mem, p, 0, 0, []⟩ = some _ := carveLoop_eq (i := 0) hcount (Nat.zero_le n) (by omega) _
  unfold carve at hcarve
  rw [hrun, Option.map_some] at hcarve
  obtain ⟨-, heq⟩ := Prod.mk.inj (Option.some.inj hcarve)
  rw [← (Prod.mk.inj heq).2, ← List.length_pos_iff, length_carved]
  exact Nat.lt_of_lt_of_le hn (Nat.le_add_left _ _)

/-- A count of the size table, as the `size_t` it becomes: a negative one is out of the loop
counter's reach. -/
theorem toSizeT_cases {n : Int} (hn : n ≠ 0) (hint : -2 ^ 31 ≤ n ∧ n < 2 ^ 31) :
    0 < n ∧ (toSizeT n : Int) = n ∧ toSizeT n < 2 ^ 31 ∨ n < 0 ∧ 2 ^ 32 ≤ toSizeT n := by
  unfold toSizeT
  by_cases hpos : 0 < n
  · refine Or.inl ⟨hpos, ?_⟩
    rw [Int.emod_eq_of_lt (by omega) (by omega)]
    omega
  · refine Or.inr ⟨by omega, ?_⟩
    have hmod : n % 2 ^ 64 = n + 2 ^ 64 := by
      rw [← Int.add_emod_right, Int.emod_eq_of_lt (by omega) (by omega)]
    rw [hmod]
    omega

/-- **Carving works** exactly on positive counts and sizes for which the power of two and the
bytes of the batch, in whole pages, fit a `size_t`, and only if `mm.Malloc` did not fail. -/
theorem carve_carves_iff (c : Config) (mem : Memory) (core size p : Nat) (n : Int)
    (hcore : core < c.coreN) (hsize : 1 ≤ size) (hn : n ≠ 0) (hint : -2 ^ 31 ≤ n ∧ n < 2 ^ 31)
    (hp : Usable p (mmapSize c size (toSizeT n))) :
    Carves c mem core size (toSizeT n) p ↔
      0 < n ∧ size ≤ 2 ^ 63 ∧ totalSize size * n.toNat + c.pageSize ≤ 2 ^ 64 ∧ p ≠ 0 := by
  constructor
  · intro ⟨r, mem', carved, hcarve, hwrap, hresult⟩
    have hcount : ¬ 2 ^ 32 ≤ toSizeT n := fun hbig => by
      rw [carve_eq_none_iff.mpr hbig] at hcarve
      exact absurd hcarve (by simp)
    obtain ⟨hpos, hval, -⟩ := (toSizeT_cases hn hint).resolve_right fun h => hcount h.2
    have hnat : toSizeT n = n.toNat := by omega
    refine ⟨hpos, round_fits_iff.mp hwrap.round, hnat ▸ hwrap.pages, ?_⟩
    cases hresult with
    | inl hfailed => exact absurd hfailed.1 (carved_ne_nil (by omega) hcarve)
    | inr hchain =>
        -- the head of a chain that is not empty is not null
        have hchain' := hchain.chain
        intro hzero
        rw [hchain.head, hzero] at hchain'
        have hnil := hchain'.head_eq_null_iff.mp rfl
        have hlen := congrArg List.length hnil
        rw [List.length_map, List.length_range, List.length_nil] at hlen
        omega
  · intro ⟨hpos, hle, hpages, hne⟩
    obtain ⟨-, hval, hlt⟩ := (toSizeT_cases hn hint).resolve_right fun h => by omega
    have hnat : toSizeT n = n.toNat := by omega
    rw [← hnat] at hpages
    obtain ⟨hend, halign⟩ := hp.resolve_left hne
    have hroom := room_of_pages hpages
    obtain ⟨s, hcarve, hcarved⟩ :=
      carve_spec (n := toSizeT n) size mem (Nat.pos_of_ne_zero hne) (by omega) hcore (by omega)
    refine ⟨_, _, _, hcarve, noWrap_of_fits hle hpages (by omega), Or.inr ?_⟩
    exact hcarved.carvedChain (by omega) (le_bodySize hsize hle) halign hroom

/-- Two blocks of 17 bytes in one page. -/
theorem carve_carves_two :
    Carves MmapManager.oneCore (fun _ => 0) 0 17 (toSizeT 2) 0x10000 :=
  (carve_carves_iff MmapManager.oneCore _ 0 17 0x10000 2 (by decide) (by decide) (by decide)
    (by decide) (Or.inr (by decide))).mpr (by decide)

/-- A negative count never comes to an end. The range asked for has wrapped to no bytes at all,
for which the arena has an address. -/
theorem carve_not_carves : ¬ ∀ (c : Config) (mem : Memory) (core size p : Nat) (n : Int),
    core < c.coreN → 1 ≤ size → n ≠ 0 → -2 ^ 31 ≤ n ∧ n < 2 ^ 31 →
      Usable p (mmapSize c size (toSizeT n)) → Carves c mem core size (toSizeT n) p := by
  intro h
  obtain ⟨r, mem', carved, hcarve, -⟩ := h MmapManager.oneCore (fun _ => 0) 0 8 0x7f0000000000
    (-1) (by decide) (by decide) (by decide) (by decide) (Or.inr (by decide))
  rw [carve_eq_none_iff.mpr (by decide)] at hcarve
  exact absurd hcarve (by simp)

end FCMalloc
