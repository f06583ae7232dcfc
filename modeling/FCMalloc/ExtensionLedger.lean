import FCMalloc.ArenaSafety
import FCMalloc.Library.TransitionSystem
import Mathlib.Algebra.BigOperators.Group.Finset.Piecewise
import Mathlib.Algebra.BigOperators.Intervals

/-!
# FCMalloc.ExtensionLedger

The extension table of `MmapManager` over whole runs of `Malloc`.

`sizess_` and `poolss_` are two-dimensional arrays laid out flat, a row of
`extendMax_` entries for each arena, but one counter `extendOffset_` numbers the
extensions of all arenas together. A history of the run keeps, for each arena, the
mappings obtained for it and the index each was recorded at; `Ledger` says that the
table agrees with that history. While the counter is below `extendMax_` whenever an
arena is extended, every index is in its row and is new, so one extension adds one
record (`LedgerInv.extend`) and the row sum moves with `debugSizes_`. The assertion
that would check the counter is compiled out, and the run at the end passes it.

`debugSizes_` does not wrap: the mappings of one arena are apart from each other, so
together they are smaller than the address space (`Extent.sum_len_le`).
-/

namespace FCMalloc.MmapManager

/-- A mapping and the index of the extension table it was recorded at. -/
structure Record where
  index : Nat
  map : Extent

/-- The manager, and for each arena the records made for it, newest first. -/
structure History where
  mm : MmapManager
  records : Nat → List Record

/-- The indices of row `a` of the extension table. -/
def row (a : Nat) : Finset Nat := Finset.Ico (extendMax * a) (extendMax * (a + 1))

theorem mem_row {a i : Nat} : i ∈ row a ↔ extendMax * a ≤ i ∧ i < extendMax * (a + 1) :=
  Finset.mem_Ico

/-- Entry `e` of row `a` is in row `a` and no other. -/
theorem entry_mem_row {a b e : Nat} (he : e < extendMax) : extendMax * a + e ∈ row b ↔ a = b := by
  rw [mem_row]
  unfold extendMax at *
  omega

/-- The record of the mapping `Init` makes for arena `a`. -/
def initRecord (c : Config) (base : Nat → Nat) (a : Nat) : Record :=
  ⟨extendMax * a + 0, ⟨base a, initSize c a⟩⟩

/-- The record `ExtendBuffer` makes when it extends arena `a` for `size` bytes. -/
def extendRecord (c : Config) (mm : MmapManager) (a size ret : Nat) : Record :=
  ⟨extendMax * a + mm.extendOffset, ⟨ret, align (allocSize size) c.pageSize⟩⟩

/-- An extension of arena `a`, recorded in the history. -/
def History.extend (c : Config) (x : History) (a size ret : Nat) : History where
  mm := x.mm.extend c a size ret
  records := Function.update x.records a (extendRecord c x.mm a size ret :: x.records a)

/-- The records after the call `k`: one more if the call extends its arena. -/
def recordsAfter (c : Config) (x : History) (k : Call) : Nat → List Record :=
  if x.mm.needsExtension c (k.arena c) k.size then
    (x.extend c (k.arena c) k.size k.ret).records
  else x.records

/-- Runs of `Malloc` calls after `Init`, one after the other. -/
def mallocRuns (c : Config) (base : Nat → Nat) : TransitionSystem History Call where
  start x := x = ⟨init c base, fun a => [initRecord c base a]⟩
  step x k x' :=
    (∃ p touched, malloc c k.main x.mm k.core k.size k.ret = some (p, x'.mm, touched)) ∧
      x'.records = recordsAfter c x k

/-- The condition of the assertion in `ExtendBuffer`, for a call that extends. -/
def Call.InTable (c : Config) (mm : MmapManager) (k : Call) : Prop :=
  mm.needsExtension c (k.arena c) k.size = true → mm.extendOffset < extendMax

/-- The extension table is a ledger of the mappings obtained. -/
structure Ledger (c : Config) (x : History) : Prop where
  /-- Every record was written inside its arena's row, hence inside the arrays. -/
  in_row : ∀ a < c.threadN, ∀ r ∈ x.records a,
    r.index ∈ row a ∧ r.index < c.threadN * extendMax
  /-- No record has been overwritten. -/
  kept : ∀ a < c.threadN, ∀ r ∈ x.records a,
    x.mm.sizess r.index = r.map.len ∧ x.mm.poolss r.index = r.map.base
  /-- No two records of an arena share an entry. -/
  once : ∀ a < c.threadN, ((x.records a).map Record.index).Nodup
  /-- A row holds nothing but these records. -/
  rest : ∀ a < c.threadN, ∀ i ∈ row a, i ∉ (x.records a).map Record.index →
    x.mm.sizess i = 0 ∧ x.mm.poolss i = 0
  /-- Every mapping the manager obtained is recorded for some arena. -/
  complete : ∀ e, e ∈ x.mm.maps ↔ ∃ a < c.threadN, ∃ r ∈ x.records a, r.map = e
  debugSizes : ∀ a < c.threadN, x.mm.debugSizes a = ∑ i ∈ row a, x.mm.sizess i
  debugOffsets : ∀ a < c.threadN, x.mm.debugOffsets a ≤ x.mm.debugSizes a

/-- What every call preserves: the ledger with where in its row each record is, that
the mappings of an arena are apart, and the room that is left in the arenas. -/
structure LedgerInv (c : Config) (x : History) : Prop where
  index : ∀ a < c.threadN, ∀ r ∈ x.records a,
    ∃ e, e < extendMax ∧ e < x.mm.extendOffset ∧ r.index = extendMax * a + e
  kept : ∀ a < c.threadN, ∀ r ∈ x.records a,
    x.mm.sizess r.index = r.map.len ∧ x.mm.poolss r.index = r.map.base
  once : ∀ a < c.threadN, ((x.records a).map Record.index).Nodup
  rest : ∀ a < c.threadN, ∀ i ∈ row a, i ∉ (x.records a).map Record.index →
    x.mm.sizess i = 0 ∧ x.mm.poolss i = 0
  complete : ∀ e, e ∈ x.mm.maps ↔ ∃ a < c.threadN, ∃ r ∈ x.records a, r.map = e
  apart : ∀ a < c.threadN, ((x.records a).map Record.map).Pairwise Extent.Apart
  bound : ∀ e ∈ x.mm.maps, e.base + e.len < 2 ^ 64
  total : ∀ a < c.threadN,
    x.mm.debugSizes a = (((x.records a).map Record.map).map Extent.len).sum
  row_sum : ∀ a < c.threadN, x.mm.debugSizes a = ∑ i ∈ row a, x.mm.sizess i
  offset_le : ∀ a < c.threadN, x.mm.offsets a ≤ x.mm.sizes a
  size_lt : ∀ a < c.threadN, x.mm.sizes a < 2 ^ 64
  room : ∀ a < c.threadN,
    x.mm.debugOffsets a + (x.mm.sizes a - x.mm.offsets a) ≤ x.mm.debugSizes a

variable {c : Config} {base : Nat → Nat} {x x' : History} {mm mm' : MmapManager} {k : Call}
  {a b size : Nat}

namespace History

variable {ret : Nat} {r : Record}

@[simp] theorem extend_sizess : (x.extend c a size ret).mm.sizess =
    Function.update x.mm.sizess (extendRecord c x.mm a size ret).index
      (extendRecord c x.mm a size ret).map.len := rfl

@[simp] theorem extend_poolss : (x.extend c a size ret).mm.poolss =
    Function.update x.mm.poolss (extendRecord c x.mm a size ret).index
      (extendRecord c x.mm a size ret).map.base := rfl

@[simp] theorem extend_sizes : (x.extend c a size ret).mm.sizes =
    Function.update x.mm.sizes a (align (allocSize size) c.pageSize) := rfl

@[simp] theorem extend_offsets : (x.extend c a size ret).mm.offsets =
    Function.update x.mm.offsets a 0 := rfl

@[simp] theorem extend_debugOffsets :
    (x.extend c a size ret).mm.debugOffsets = x.mm.debugOffsets := rfl

@[simp] theorem extend_debugSizes : (x.extend c a size ret).mm.debugSizes =
    Function.update x.mm.debugSizes a
      (u64 (x.mm.debugSizes a + align (allocSize size) c.pageSize)) := rfl

theorem extend_records_self : (x.extend c a size ret).records a =
    extendRecord c x.mm a size ret :: x.records a := Function.update_self ..

theorem extend_records_of_ne (hba : b ≠ a) : (x.extend c a size ret).records b = x.records b :=
  Function.update_of_ne hba ..

theorem mem_extend : r ∈ (x.extend c a size ret).records b ↔
    (b = a ∧ r = extendRecord c x.mm a size ret) ∨ r ∈ x.records b := by
  by_cases hba : b = a
  · subst hba
    rw [extend_records_self, List.mem_cons, and_iff_right rfl]
  · rw [extend_records_of_ne hba]
    exact ⟨Or.inr, fun h => h.resolve_left fun hnew => hba hnew.1⟩

end History

/-- The invariant is a ledger. -/
theorem LedgerInv.ledger (h : LedgerInv c x) : Ledger c x where
  in_row a ha r hr := by
    obtain ⟨e, hemax, -, hindex⟩ := h.index a ha r hr
    have hmem : r.index ∈ row a := by
      rw [hindex]
      exact (entry_mem_row hemax).mpr rfl
    refine ⟨hmem, Nat.lt_of_lt_of_le (mem_row.mp hmem).2 ?_⟩
    rw [Nat.mul_comm]
    exact Nat.mul_le_mul_right _ ha
  kept := h.kept
  once := h.once
  rest := h.rest
  complete := h.complete
  debugSizes := h.row_sum
  debugOffsets a ha := Nat.le_trans (Nat.le_add_right _ _) (h.room a ha)

/-! ### The table after Init -/

/-- The extension table and the counters `Init` leaves behind. -/
theorem init_table (c : Config) (base : Nat → Nat) :
    (∀ a < c.threadN, (init c base).sizess (extendMax * a + 0) = initSize c a ∧
      (init c base).poolss (extendMax * a + 0) = base a ∧
      (init c base).debugSizes a = initSize c a) ∧
    (∀ i, (∀ a < c.threadN, i ≠ extendMax * a + 0) →
      (init c base).sizess i = 0 ∧ (init c base).poolss i = 0) ∧
    (∀ a, (init c base).debugOffsets a = 0) := by
  let P : Nat → MmapManager → Prop := fun k mm =>
    (∀ a < k, mm.sizess (extendMax * a + 0) = initSize c a ∧
      mm.poolss (extendMax * a + 0) = base a ∧ mm.debugSizes a = initSize c a) ∧
    (∀ i, (∀ a < k, i ≠ extendMax * a + 0) → mm.sizess i = 0 ∧ mm.poolss i = 0) ∧
    (∀ a, mm.debugOffsets a = 0)
  show P c.threadN (forRange c.threadN (fun i mm => initArena c (base i) i mm) blank)
  refine forRange_invariant P ?_ ?_
  · exact ⟨fun a ha => absurd ha (Nat.not_lt_zero a), fun _ _ => ⟨rfl, rfl⟩, fun _ => rfl⟩
  · intro k hk mm hP
    obtain ⟨hentries, hrest, hoffsets⟩ := hP
    refine ⟨?_, ?_, ?_⟩
    · intro a ha
      by_cases hak : a = k
      · subst hak
        simp [initArena]
      · have hne : extendMax * a + 0 ≠ extendMax * k + 0 := by
          unfold extendMax
          omega
        simpa only [initArena, Function.update_of_ne hne, Function.update_of_ne hak]
          using hentries a (by omega)
    · intro i hi
      have hne : i ≠ extendMax * k + 0 := hi k (Nat.lt_succ_self k)
      simpa only [initArena, Function.update_of_ne hne]
        using hrest i fun a ha => hi a (Nat.lt_succ_of_lt ha)
    · intro a
      by_cases hak : a = k
      · subst hak
        simp [initArena]
      · simpa only [initArena, Function.update_of_ne hak] using hoffsets a

/-- **Start.** `Init` records one mapping for each arena. -/
theorem ledgerInv_init (hbase : c.FreshBase base) :
    LedgerInv c ⟨init c base, fun a => [initRecord c base a]⟩ := by
  obtain ⟨hentries, hrest, hoffsets⟩ := init_table c base
  obtain ⟨harrays, hoff, -, hmaps, -⟩ := init_spec hbase
  have hzero : 0 < extendMax := by decide
  have hempty : ∀ a < c.threadN, ∀ i ∈ row a, i ≠ extendMax * a + 0 →
      (init c base).sizess i = 0 ∧ (init c base).poolss i = 0 := by
    intro a ha i hi hne
    refine hrest i fun b hb hib => hne ?_
    rw [hib, entry_mem_row hzero] at hi
    rw [hib, hi]
  have hsize : ∀ a < c.threadN, initSize c a < 2 ^ 64 := fun a ha => by
    have := (hbase a ha).2.2.2.1
    omega
  constructor
  case index =>
    intro a _ r hr
    obtain rfl := List.mem_singleton.mp hr
    exact ⟨0, hzero, Nat.zero_lt_one, rfl⟩
  case kept =>
    intro a ha r hr
    obtain rfl := List.mem_singleton.mp hr
    exact ⟨(hentries a ha).1, (hentries a ha).2.1⟩
  case once => exact fun a _ => List.nodup_singleton _
  case rest =>
    intro a ha i hi hnot
    exact hempty a ha i hi fun heq => hnot (List.mem_singleton.mpr heq)
  case complete =>
    intro e
    rw [hmaps]
    constructor
    · intro ⟨i, hi, he⟩
      exact ⟨i, hi, initRecord c base i, List.mem_singleton_self _, he.symm⟩
    · intro ⟨i, hi, r, hr, he⟩
      obtain rfl := List.mem_singleton.mp hr
      exact ⟨i, hi, he.symm⟩
  case apart => exact fun a _ => List.pairwise_singleton _ _
  case bound =>
    intro e he
    obtain ⟨i, hi, rfl⟩ := (hmaps e).mp he
    exact (hbase i hi).2.2.2.1
  case total =>
    intro a ha
    exact (hentries a ha).2.2
  case row_sum =>
    intro a ha
    -- the first entry of the row is the only one that is not zero
    rw [(hentries a ha).2.2, ← (hentries a ha).1]
    refine (Finset.sum_eq_single (extendMax * a + 0) ?_ ?_).symm
    · exact fun i hi hne => (hempty a ha i hi hne).1
    · exact fun hnot => absurd ((entry_mem_row hzero).mpr rfl) hnot
  case offset_le =>
    intro a _
    show (init c base).offsets a ≤ _
    rw [hoff a]
    exact Nat.zero_le _
  case size_lt =>
    intro a ha
    show (init c base).sizes a < _
    rw [(harrays a ha).2]
    exact hsize a ha
  case room =>
    intro a ha
    show (init c base).debugOffsets a + ((init c base).sizes a - (init c base).offsets a) ≤
      (init c base).debugSizes a
    rw [hoffsets a, hoff a, (harrays a ha).2, (hentries a ha).2.2]
    omega

/-! ### One call -/

namespace LedgerInv

theorem restSize_eq (h : LedgerInv c x) (ha : a < c.threadN) :
    x.mm.restSize a = x.mm.sizes a - x.mm.offsets a :=
  restSize_of_le (h.offset_le a ha) (h.size_lt a ha)

/-- The table does not mention the first-touch flags. -/
theorem touchOnce {main : Bool} {core : Nat} {touched : List Nat} (h : LedgerInv c x)
    (ht : touchOnce c main x.mm core = some (mm', touched)) : LedgerInv c ⟨mm', x.records⟩ := by
  obtain ⟨-, rfl, -⟩ | ⟨-, -, rfl⟩ := touchOnce_cases ht
  · exact h
  · exact { h with }

/-- What is recorded is mapped. -/
theorem recorded_mapped (h : LedgerInv c x) (ha : a < c.threadN) {e : Extent}
    (he : e ∈ (x.records a).map Record.map) : e ∈ x.mm.maps := by
  obtain ⟨r, hr, hre⟩ := List.mem_map.mp he
  exact (h.complete e).mpr ⟨a, ha, r, hr, hre⟩

/-- The total of an arena's records is below the address space, with room for one
more mapping that is apart from everything mapped. -/
theorem total_add_lt {ret len : Nat} (h : LedgerInv c x) (ha : a < c.threadN)
    (hfresh : c.Fresh x.mm.maps ret len) : x.mm.debugSizes a + len < 2 ^ 64 := by
  obtain ⟨-, -, -, hlt, hapart⟩ := hfresh
  have hall : ((⟨ret, len⟩ : Extent) :: (x.records a).map Record.map).Pairwise Extent.Apart :=
    List.pairwise_cons.mpr ⟨fun e he => hapart e (h.recorded_mapped ha he), h.apart a ha⟩
  have hbelow : ∀ e ∈ (⟨ret, len⟩ : Extent) :: (x.records a).map Record.map,
      e.base + e.len ≤ 2 ^ 64 - 1 := by
    intro e he
    cases List.mem_cons.mp he with
    | inl hnew =>
        subst hnew
        exact Nat.le_sub_one_of_lt hlt
    | inr hold => exact Nat.le_sub_one_of_lt (h.bound e (h.recorded_mapped ha hold))
  have hsum : len + (((x.records a).map Record.map).map Extent.len).sum ≤ 2 ^ 64 - 1 :=
    Extent.sum_len_le hall hbelow
  rw [← h.total a ha] at hsum
  omega

/-- The entry an extension writes is in no record yet, of any arena. -/
theorem index_ne {ret : Nat} (h : LedgerInv c x) (hmax : x.mm.extendOffset < extendMax)
    (hb : b < c.threadN) {r : Record} (hr : r ∈ x.records b) :
    r.index ≠ (extendRecord c x.mm a size ret).index := by
  intro heq
  obtain ⟨e, hemax, hoff, hindex⟩ := h.index b hb r hr
  have hrow : (extendRecord c x.mm a size ret).index ∈ row b := by
    rw [← heq, hindex]
    exact (entry_mem_row hemax).mpr rfl
  have hab : a = b := (entry_mem_row hmax).mp hrow
  subst hab
  have : extendMax * a + e = extendMax * a + x.mm.extendOffset := hindex.symm.trans heq
  omega

theorem index_unused {ret : Nat} (h : LedgerInv c x) (hmax : x.mm.extendOffset < extendMax)
    (ha : a < c.threadN) :
    (extendRecord c x.mm a size ret).index ∉ (x.records a).map Record.index := by
  intro hmem
  obtain ⟨r, hr, heq⟩ := List.mem_map.mp hmem
  exact h.index_ne hmax ha hr heq

/-- What is not written stays as it was: zero, as no record is made there. -/
theorem extend_rest {ret i : Nat} (h : LedgerInv c x) (hmax : x.mm.extendOffset < extendMax)
    (hb : b < c.threadN) (hi : i ∈ row b)
    (hnot : i ∉ ((x.extend c a size ret).records b).map Record.index) :
    (x.extend c a size ret).mm.sizess i = 0 ∧ (x.extend c a size ret).mm.poolss i = 0 := by
  have hnot' : i ∉ (x.records b).map Record.index := by
    intro hmem
    obtain ⟨r, hr, heq⟩ := List.mem_map.mp hmem
    exact hnot (List.mem_map.mpr ⟨r, History.mem_extend.mpr (Or.inr hr), heq⟩)
  have hne : i ≠ (extendRecord c x.mm a size ret).index := by
    rintro rfl
    have hab : a = b := (entry_mem_row hmax).mp hi
    have hnew : extendRecord c x.mm a size ret ∈ (x.extend c a size ret).records b :=
      History.mem_extend.mpr (Or.inl ⟨hab.symm, rfl⟩)
    exact hnot (List.mem_map.mpr ⟨_, hnew, rfl⟩)
  rw [History.extend_sizess, History.extend_poolss, Function.update_of_ne hne,
    Function.update_of_ne hne]
  exact h.rest b hb i hi hnot'

/-- The mapping is recorded, for its arena. -/
theorem extend_complete {ret : Nat} (h : LedgerInv c x) (ha : a < c.threadN) (e : Extent) :
    e ∈ (extendRecord c x.mm a size ret).map :: x.mm.maps ↔
      ∃ b < c.threadN, ∃ r ∈ (x.extend c a size ret).records b, r.map = e := by
  rw [List.mem_cons, h.complete e]
  constructor
  · intro he
    cases he with
    | inl hnew => exact ⟨a, ha, _, History.mem_extend.mpr (Or.inl ⟨rfl, rfl⟩), hnew.symm⟩
    | inr hold =>
        obtain ⟨b, hb, r, hr, hre⟩ := hold
        exact ⟨b, hb, r, History.mem_extend.mpr (Or.inr hr), hre⟩
  · intro ⟨b, hb, r, hr, hre⟩
    cases History.mem_extend.mp hr with
    | inl hnew => exact Or.inl (by rw [← hre, hnew.2])
    | inr hold => exact Or.inr ⟨b, hb, r, hold, hre⟩

/-- The sum of a row grows by what its arena is extended by. -/
theorem extend_row_sum {ret : Nat} (h : LedgerInv c x) (hmax : x.mm.extendOffset < extendMax)
    (hb : b < c.threadN) :
    ∑ i ∈ row b, (x.extend c a size ret).mm.sizess i =
      x.mm.debugSizes b + if b = a then align (allocSize size) c.pageSize else 0 := by
  rw [History.extend_sizess]
  split
  case isTrue hba =>
    subst hba
    have hmem : (extendRecord c x.mm b size ret).index ∈ row b := (entry_mem_row hmax).mpr rfl
    -- the entry was zero, so the row's old sum is that of the other entries
    have hold := Finset.sum_eq_add_sum_sdiff_singleton_of_mem hmem x.mm.sizess
    rw [(h.rest b hb _ hmem (h.index_unused hmax hb)).1, Nat.zero_add, ← h.row_sum b hb] at hold
    rw [Finset.sum_update_of_mem hmem, ← hold, Nat.add_comm]
    rfl
  case isFalse hba =>
    have hnotmem : (extendRecord c x.mm a size ret).index ∉ row b := fun hmem =>
      hba ((entry_mem_row hmax).mp hmem).symm
    rw [Finset.sum_update_of_notMem hnotmem, ← h.row_sum b hb, Nat.add_zero]

/-- The new record is at the counter, which moves past it. -/
theorem extend_index {ret : Nat} (h : LedgerInv c x) (hmax : x.mm.extendOffset < extendMax)
    (hb : b < c.threadN) {r : Record} (hr : r ∈ (x.extend c a size ret).records b) :
    ∃ e, e < extendMax ∧ e < (x.extend c a size ret).mm.extendOffset ∧
      r.index = extendMax * b + e := by
  cases History.mem_extend.mp hr with
  | inl hnew =>
      obtain ⟨rfl, rfl⟩ := hnew
      exact ⟨_, hmax, Nat.lt_succ_self _, rfl⟩
  | inr hold =>
      obtain ⟨e, hemax, hoff, hindex⟩ := h.index b hb r hold
      exact ⟨e, hemax, Nat.lt_succ_of_lt hoff, hindex⟩

/-- The entry of another record is not written. -/
theorem extend_kept {ret : Nat} (h : LedgerInv c x) (hmax : x.mm.extendOffset < extendMax)
    (hb : b < c.threadN) {r : Record} (hr : r ∈ (x.extend c a size ret).records b) :
    (x.extend c a size ret).mm.sizess r.index = r.map.len ∧
      (x.extend c a size ret).mm.poolss r.index = r.map.base := by
  rw [History.extend_sizess, History.extend_poolss]
  cases History.mem_extend.mp hr with
  | inl hnew =>
      obtain ⟨rfl, rfl⟩ := hnew
      exact ⟨Function.update_self .., Function.update_self ..⟩
  | inr hold =>
      have hne : r.index ≠ (extendRecord c x.mm a size ret).index := h.index_ne hmax hb hold
      rw [Function.update_of_ne hne, Function.update_of_ne hne]
      exact h.kept b hb r hold

theorem extend_once {ret : Nat} (h : LedgerInv c x) (hmax : x.mm.extendOffset < extendMax)
    (hb : b < c.threadN) :
    (((x.extend c a size ret).records b).map Record.index).Nodup := by
  by_cases hba : b = a
  · subst hba
    rw [History.extend_records_self, List.map_cons, List.nodup_cons]
    exact ⟨h.index_unused hmax hb, h.once b hb⟩
  · rw [History.extend_records_of_ne hba]
    exact h.once b hb

/-- The kernel hands out what is not mapped. -/
theorem extend_apart {ret : Nat} (h : LedgerInv c x) (hb : b < c.threadN)
    (hapart : ∀ e ∈ x.mm.maps, (extendRecord c x.mm a size ret).map.Apart e) :
    (((x.extend c a size ret).records b).map Record.map).Pairwise Extent.Apart := by
  by_cases hba : b = a
  · subst hba
    rw [History.extend_records_self, List.map_cons, List.pairwise_cons]
    exact ⟨fun e he => hapart e (h.recorded_mapped hb he), h.apart b hb⟩
  · rw [History.extend_records_of_ne hba]
    exact h.apart b hb

/-- `debugSizes_` counts what the arena is extended by. -/
theorem extend_total {ret : Nat} (h : LedgerInv c x) (hb : b < c.threadN)
    (hdebug : u64 (x.mm.debugSizes a + align (allocSize size) c.pageSize) =
      x.mm.debugSizes a + align (allocSize size) c.pageSize) :
    (x.extend c a size ret).mm.debugSizes b =
      ((((x.extend c a size ret).records b).map Record.map).map Extent.len).sum := by
  rw [History.extend_debugSizes, hdebug]
  by_cases hba : b = a
  · subst hba
    rw [History.extend_records_self, List.map_cons, List.map_cons, List.sum_cons,
      ← h.total b hb, Function.update_self, Nat.add_comm]
    rfl
  · rw [History.extend_records_of_ne hba, ← h.total b hb, Function.update_of_ne hba]

/-- The new mapping is room: the counter of its sizes grows by all of it. -/
theorem extend_room {ret : Nat} (h : LedgerInv c x) (hb : b < c.threadN)
    (hdebug : u64 (x.mm.debugSizes a + align (allocSize size) c.pageSize) =
      x.mm.debugSizes a + align (allocSize size) c.pageSize) :
    (x.extend c a size ret).mm.debugOffsets b +
        ((x.extend c a size ret).mm.sizes b - (x.extend c a size ret).mm.offsets b) ≤
      (x.extend c a size ret).mm.debugSizes b := by
  have hroom := h.room b hb
  by_cases hba : b = a
  · subst hba
    simp only [History.extend_debugOffsets, History.extend_sizes, History.extend_offsets,
      History.extend_debugSizes, Function.update_self, hdebug]
    omega
  · simpa [hba] using hroom

/-- **Extension.** Below `extendMax` the new entry is in its row and was unused, so the
row gains one record and its sum moves with `debugSizes_`. -/
theorem extend {ret : Nat} (h : LedgerInv c x) (ha : a < c.threadN)
    (hfresh : c.Fresh x.mm.maps ret (align (allocSize size) c.pageSize))
    (hmax : x.mm.extendOffset < extendMax) : LedgerInv c (x.extend c a size ret) := by
  have htotal := h.total_add_lt ha hfresh
  obtain ⟨hnf, -, -, hlt, hapart⟩ := hfresh
  have hmaps : (x.extend c a size ret).mm.maps =
      (extendRecord c x.mm a size ret).map :: x.mm.maps := if_neg hnf
  have hdebug : u64 (x.mm.debugSizes a + align (allocSize size) c.pageSize) =
      x.mm.debugSizes a + align (allocSize size) c.pageSize := u64_of_lt htotal
  constructor
  case index => exact fun b hb r hr => h.extend_index hmax hb hr
  case kept => exact fun b hb r hr => h.extend_kept hmax hb hr
  case once => exact fun b hb => h.extend_once hmax hb
  case rest => exact fun b hb i hi hnot => h.extend_rest hmax hb hi hnot
  case complete =>
    intro e
    rw [hmaps]
    exact h.extend_complete ha e
  case apart => exact fun b hb => h.extend_apart hb hapart
  case bound =>
    intro e he
    rw [hmaps] at he
    cases List.mem_cons.mp he with
    | inl hnew =>
        subst hnew
        exact hlt
    | inr hold => exact h.bound e hold
  case total => exact fun b hb => h.extend_total hb hdebug
  case row_sum =>
    intro b hb
    rw [History.extend_debugSizes, hdebug, h.extend_row_sum hmax hb, Function.update_apply]
    split
    case isTrue hba => rw [hba]
    case isFalse => rfl
  case offset_le =>
    intro b hb
    by_cases hba : b = a
    · subst hba
      simp
    · simpa [hba] using h.offset_le b hb
  case size_lt =>
    intro b hb
    by_cases hba : b = a
    · subst hba
      have : align (allocSize size) c.pageSize < 2 ^ 64 := by omega
      simpa using this
    · simpa [hba] using h.size_lt b hb
  case room => exact fun b hb => h.extend_room hb hdebug

/-- **Serving.** A request that fits is counted out of the room of its arena. -/
theorem serve (h : LedgerInv c x) (ha : a < c.threadN)
    (hfit : size ≤ x.mm.sizes a - x.mm.offsets a) :
    LedgerInv c ⟨(x.mm.serve a size).2, x.records⟩ := by
  have hroom := h.room a ha
  have hoff := h.offset_le a ha
  have hsize := h.size_lt a ha
  have hcount : x.mm.debugSizes a < 2 ^ 64 := by
    have hall := Extent.sum_len_le (h.apart a ha) fun e he =>
      Nat.le_sub_one_of_lt (h.bound e (h.recorded_mapped ha he))
    rw [← h.total a ha] at hall
    omega
  have hadd : u64 (x.mm.offsets a + size) = x.mm.offsets a + size := u64_of_lt (by omega)
  have hdebug : u64 (x.mm.debugOffsets a + size) = x.mm.debugOffsets a + size :=
    u64_of_lt (by omega)
  refine { h with offset_le := ?_, room := ?_ }
  · intro b hb
    by_cases hba : b = a
    · subst hba
      simp only [MmapManager.serve, Function.update_self, hadd]
      omega
    · simpa [MmapManager.serve, hba] using h.offset_le b hb
  · intro b hb
    by_cases hba : b = a
    · subst hba
      simp only [MmapManager.serve, Function.update_self, hadd, hdebug]
      omega
    · simpa [MmapManager.serve, hba] using h.room b hb

/-- **One call.** -/
theorem step (h : LedgerInv c x) (hlegal : k.Legal c x.mm) (hforce : c.forceMmapFlag = true)
    (htable : k.InTable c x.mm) (hs : (mallocRuns c base).step x k x') : LedgerInv c x' := by
  obtain ⟨⟨p, touched, hm⟩, hrecords⟩ := hs
  have ha : k.arena c < c.threadN := Config.arena_lt hlegal.core_le
  obtain ⟨mm₁, ht, hcases⟩ := malloc_cases hm
  have h₁ : LedgerInv c ⟨mm₁, x.records⟩ := h.touchOnce ht
  have hneed := needsExtension_touchOnce ht (k.arena c) k.size
  have hx' : x' = ⟨x'.mm, x'.records⟩ := rfl
  rw [hx', hrecords, recordsAfter]
  cases hcases with
  | inl hdirect =>
      -- no extension: with the flag set, the request fits
      obtain ⟨hno, -, hmm⟩ := hdirect
      rw [if_neg (by rw [← hneed, hno]; exact Bool.false_ne_true), hmm]
      refine h₁.serve ha ?_
      simp only [needsExtension, hforce, Bool.and_true, decide_eq_false_iff_not] at hno
      rw [show mm₁.restSize _ = _ from h₁.restSize_eq ha] at hno
      exact Nat.le_of_not_lt hno
  | inr hextended =>
      obtain ⟨hyes, heq⟩ := hextended
      have hmm : x'.mm = ((mm₁.extend c (k.arena c) k.size k.ret).finishExtended
        (k.arena c) k.size).2 := congrArg Prod.snd heq
      rw [hneed] at hyes
      obtain ⟨-, -, -, hmaps, -⟩ := touchOnce_frame ht
      have hoffset : mm₁.extendOffset = x.mm.extendOffset := extendOffset_touchOnce ht
      have hfresh := hlegal.fresh hyes
      have hmax := htable hyes
      rw [← hmaps] at hfresh
      rw [← hoffset] at hmax
      have h₂ := h₁.extend ha hfresh hmax
      have hrecord : (x.extend c (k.arena c) k.size k.ret).records =
          (History.extend c ⟨mm₁, x.records⟩ (k.arena c) k.size k.ret).records := by
        simp only [History.extend, extendRecord, hoffset]
      rw [if_pos hyes, hmm, hrecord, finishExtended]
      by_cases hfit : (mm₁.extend c (k.arena c) k.size k.ret).restSize (k.arena c) < k.size
      · rw [if_pos hfit]
        exact h₂
      · rw [if_neg hfit]
        refine h₂.serve ha ?_
        have hrest := h₂.restSize_eq ha
        exact hrest ▸ Nat.le_of_not_lt hfit

end LedgerInv

/-- **The extension ledger.** In every run of `Malloc` calls, as long as the counter is
below `extendMax` whenever an arena is extended, the extension table is a ledger of the
mappings obtained. -/
theorem runs_ledger (c : Config) (base : Nat → Nat) (hbase : c.FreshBase base)
    (hforce : c.forceMmapFlag = true) (x : History)
    (hrun : (mallocRuns c base).Run (fun x k => k.Legal c x.mm ∧ k.InTable c x.mm) x) :
    Ledger c x := by
  refine (hrun.invariant (motive := LedgerInv c) ?_ ?_).ledger
  · intro x hx
    rw [show x = _ from hx]
    exact ledgerInv_init hbase
  · intro x k x' h hok hs
    exact h.step hok.1 hforce hok.2 hs

/-! ### A run that leaves the table -/

/-- The `n`-th request of 64 MB by a thread on core 0, its mapping above the ones before. -/
def sixtyFourMB (n : Nat) : Call := ⟨false, 0, 2 ^ 26, 2 ^ 44 + n * 2 ^ 26⟩

/-- One core after `n` such requests: its arena is full, the counter counts them, and
the next mapping is free. -/
structure Filled (n : Nat) (x : History) : Prop where
  counter : x.mm.extendOffset = n + 1
  touchable : ∃ touch, MmapManager.touchOnce oneCore false x.mm 0 = some touch
  full : x.mm.needsExtension oneCore 0 (2 ^ 26) = true
  free : ∀ e ∈ x.mm.maps, e.base + e.len ≤ 2 ^ 44 + n * 2 ^ 26 ∨ 2 ^ 45 ≤ e.base

theorem oneCore_freshBase : oneCore.FreshBase oneCoreBase := by decide

/-- At the start the arena has 4 MB, untouched. -/
theorem filled_init :
    Filled 0 ⟨init oneCore oneCoreBase, fun a => [initRecord oneCore oneCoreBase a]⟩ where
  counter := rfl
  touchable := by
    have hreturns : (∃ touch, MmapManager.touchOnce oneCore false (init oneCore oneCoreBase) 0 =
        some touch) ↔ _ := touchOnce_returns_iff (by decide) (by decide)
    exact hreturns.mpr (Or.inr (by decide))
  full := by decide
  free e he := by
    obtain ⟨-, -, -, hmaps, -⟩ := init_spec oneCore_freshBase
    obtain ⟨i, hi, rfl⟩ := (hmaps e).mp he
    right
    show 2 ^ 45 ≤ 0x7f0000000000 + i * 0x10000000000
    omega

theorem align_sixtyFourMB : align (allocSize (2 ^ 26)) oneCore.pageSize = 2 ^ 26 := by decide

/-- An arena of 64 MB that has served 64 MB is to be extended again. -/
theorem needsExtension_served (hsize : mm.sizes 0 = 2 ^ 26) (hoffset : mm.offsets 0 = 0) :
    (mm.serve 0 (2 ^ 26)).2.needsExtension oneCore 0 (2 ^ 26) = true := by
  have hsize' : (mm.serve 0 (2 ^ 26)).2.sizes 0 = 2 ^ 26 := hsize
  have hoffset' : (mm.serve 0 (2 ^ 26)).2.offsets 0 = 2 ^ 26 := by
    simp only [MmapManager.serve, Function.update_self, hoffset]
    rfl
  have hrest : (mm.serve 0 (2 ^ 26)).2.restSize 0 = 0 := by
    rw [restSize, hsize', hoffset']
    rfl
  have hlt : (mm.serve 0 (2 ^ 26)).2.restSize 0 < 2 ^ 26 := by
    rw [hrest]
    decide
  exact Bool.and_eq_true_iff.mpr ⟨decide_eq_true hlt, rfl⟩

namespace Filled

variable {n : Nat}

theorem legal (h : Filled n x) (hn : n ≤ extendMax) : (sixtyFourMB n).Legal oneCore x.mm where
  core_le := Nat.zero_le _
  size_lt := show 2 ^ 26 < 2 ^ 64 by decide
  fresh _ := by
    show oneCore.Fresh x.mm.maps (2 ^ 44 + n * 2 ^ 26) (align (allocSize (2 ^ 26)) oneCore.pageSize)
    rw [align_sixtyFourMB]
    unfold extendMax at hn
    refine ⟨?_, ?_, ?_, ?_, ?_⟩
    · unfold mapFailed
      omega
    · omega
    · show 4096 ∣ _
      omega
    · omega
    · intro e he
      have := h.free e he
      rw [Extent.apart_iff]
      dsimp only
      omega

/-- **One request** extends the arena by what it takes, and fills it again. -/
theorem next (h : Filled n x) (hn : n ≤ extendMax) :
    ∃ x', (mallocRuns oneCore oneCoreBase).step x (sixtyFourMB n) x' ∧ Filled (n + 1) x' ∧
      x'.records 0 = extendRecord oneCore x.mm 0 (2 ^ 26) (2 ^ 44 + n * 2 ^ 26) :: x.records 0 := by
  have hfree : ∀ e ∈ x.mm.maps, e.base + e.len ≤ 2 ^ 44 + (n + 1) * 2 ^ 26 ∨ 2 ^ 45 ≤ e.base := by
    intro e he
    rw [Nat.succ_mul, ← Nat.add_assoc]
    exact (h.free e he).imp_left (Nat.le_add_right_of_le)
  obtain ⟨⟨mm₁, touched⟩, ht⟩ := h.touchable
  have hneed := (needsExtension_touchOnce ht 0 (2 ^ 26)).trans h.full
  have hflag : mm₁.firstTouchFlag 0 = true := ArenaInv.flag_of_touchOnce ht
  obtain ⟨-, -, -, hmaps, -⟩ := touchOnce_frame ht
  have hcounter : mm₁.extendOffset = x.mm.extendOffset := extendOffset_touchOnce ht
  let mm₂ := mm₁.extend oneCore 0 (2 ^ 26) (2 ^ 44 + n * 2 ^ 26)
  have hsize : mm₂.sizes 0 = 2 ^ 26 := align_sixtyFourMB
  have hoffset : mm₂.offsets 0 = 0 := rfl
  have hrest : mm₂.restSize 0 = 2 ^ 26 := by
    rw [restSize, hsize, hoffset]
    rfl
  have hserve : mm₂.finishExtended 0 (2 ^ 26) = mm₂.serve 0 (2 ^ 26) :=
    if_neg (by rw [hrest]; exact Nat.lt_irrefl _)
  have hm : MmapManager.malloc oneCore (sixtyFourMB n).main x.mm (sixtyFourMB n).core
      (sixtyFourMB n).size (sixtyFourMB n).ret =
      some ((mm₂.serve 0 (2 ^ 26)).1, (mm₂.serve 0 (2 ^ 26)).2, touched) := by
    have hext : MmapManager.malloc oneCore false x.mm 0 (2 ^ 26) (2 ^ 44 + n * 2 ^ 26) =
      some ((mm₂.finishExtended 0 (2 ^ 26)).1, (mm₂.finishExtended 0 (2 ^ 26)).2, touched) :=
      malloc_of_extends ht hneed
    rwa [hserve] at hext
  refine ⟨⟨(mm₂.serve 0 (2 ^ 26)).2, recordsAfter oneCore x (sixtyFourMB n)⟩,
    ⟨⟨_, _, hm⟩, rfl⟩, ?_, ?_⟩
  · constructor
    case counter =>
      show mm₁.extendOffset + 1 = _
      rw [hcounter, h.counter]
    case touchable =>
      have hflag' : (mm₂.serve 0 (2 ^ 26)).2.firstTouchFlag 0 = true := hflag
      exact ⟨_, by rw [MmapManager.touchOnce, hflag', Bool.not_true, if_neg Bool.false_ne_true]⟩
    case full => exact needsExtension_served hsize hoffset
    case free =>
      intro e he
      have hnf : ¬ 2 ^ 44 + n * 2 ^ 26 = mapFailed := (h.legal hn).fresh h.full |>.1
      have he' : e ∈ recordMap mm₁.maps (2 ^ 44 + n * 2 ^ 26)
        (align (allocSize (2 ^ 26)) oneCore.pageSize) := he
      rw [recordMap, if_neg hnf, align_sixtyFourMB, hmaps] at he'
      cases List.mem_cons.mp he' with
      | inl hnew =>
          subst hnew
          dsimp only
          omega
      | inr hold => exact hfree e hold
  · have hfull : x.mm.needsExtension oneCore ((sixtyFourMB n).arena oneCore)
      (sixtyFourMB n).size = true := h.full
    show recordsAfter oneCore x (sixtyFourMB n) 0 = _
    rw [recordsAfter, if_pos hfull]
    rfl

end Filled

/-- For each `n` up to `extendMax` a run fills the arena `n` times. -/
theorem exists_filled (n : Nat) (hn : n ≤ extendMax) : ∃ x,
    (mallocRuns oneCore oneCoreBase).Run (fun x k => k.Legal oneCore x.mm) x ∧ Filled n x := by
  induction n with
  | zero => exact ⟨_, .start rfl, filled_init⟩
  | succ n ih =>
      obtain ⟨x, hrun, hx⟩ := ih (Nat.le_of_succ_le hn)
      obtain ⟨x', hstep, hx', -⟩ := hx.next (Nat.le_of_succ_le hn)
      exact ⟨x', .step hrun (hx.legal (Nat.le_of_succ_le hn)) hstep, hx'⟩

/-- The extension that finds the counter at `extendMax` is recorded in the next arena's
row. -/
theorem not_runs_ledger : ¬ ∀ (c : Config) (base : Nat → Nat), c.FreshBase base →
    c.forceMmapFlag = true → ∀ x, (mallocRuns c base).Run (fun x k => k.Legal c x.mm) x →
    Ledger c x := by
  intro hall
  have hn : extendMax - 1 ≤ extendMax := Nat.sub_le _ _
  obtain ⟨x, hrun, hx⟩ := exists_filled (extendMax - 1) hn
  obtain ⟨x', hstep, -, hrecords⟩ := hx.next hn
  have hledger := hall oneCore oneCoreBase oneCore_freshBase rfl x'
    (.step hrun (hx.legal hn) hstep)
  have hin := (hledger.in_row 0 (Nat.succ_pos _) _ (hrecords ▸ List.mem_cons_self)).1
  have hindex : extendMax * 0 + x.mm.extendOffset < extendMax * (0 + 1) := (mem_row.mp hin).2
  rw [hx.counter] at hindex
  exact absurd hindex (by decide)

/-- The first of these requests, which extends the arena, keeps the ledger. -/
theorem runs_ledger_sixtyFourMB : ∃ x, (x.records 0).length = 2 ∧ Ledger oneCore x := by
  obtain ⟨x', hstep, -, hrecords⟩ := filled_init.next (Nat.zero_le _)
  refine ⟨x', by rw [hrecords]; rfl, runs_ledger oneCore oneCoreBase oneCore_freshBase rfl x' ?_⟩
  exact .step (.start rfl) ⟨filled_init.legal (Nat.zero_le _), fun _ => by decide⟩ hstep

end FCMalloc.MmapManager
