import FCMalloc.GlobalMemoryManager
import Mathlib.Data.Set.Insert

/-!
# FCMalloc.HandBack

Where the blocks of an exiting thread go.

`FreeLocalMemoryManager(m)` offers, core by core, the blocks on `m`'s free list of the core to
the idle managers of that core. It skips the managers in the same slot as `m`, on every core,
where it means to skip `m`: `handBack_done` is its exact effect. Blocks are stranded on `m`
just if the only idle managers of their core are in that slot (`handsBack_iff`). The sibling
`FreeLocalMemoryManagerOtherNodeMallocLinkedList` has the same two loops without the skip.
-/

namespace FCMalloc

namespace GlobalMemoryManager

/-! ### The lists of one core -/

/-- Class `j` of `m`'s free list for core `k`. -/
def freeQueue (c : Config) (m k : Nat) (j : SizeClass) : QueueId :=
  ((managerPools c m).freeLists k, j)

/-- Class `j` of the `malloc_` list of slot `ii` of core `k`. -/
def mallocQueue (c : Config) (k ii : Nat) (j : SizeClass) : QueueId :=
  ((managerPools c (c.poolN * k + ii)).mallocList, j)

/-- Slot `ii` of core `k` is idle, and not that of `m`. -/
def OtherIdle (c : Config) (g : GlobalMemoryManager) (m k ii : Nat) : Prop :=
  g.poolFlags (c.poolN * k + ii) = false ∧ c.poolN * k + ii ≠ m

/-- The slots of core `k` that the loop for a manager in slot `i` passes blocks to. -/
def Accepts (c : Config) (g : GlobalMemoryManager) (i k ii : Nat) : Prop :=
  ii ≠ i ∧ g.poolFlags (c.poolN * k + ii) = false

/-- Between `q` and `q'` the lists of core `k` did not change. -/
def SameLists (c : Config) (m k : Nat) (q q' : QueueId → List Nat) : Prop :=
  ∀ j, q' (freeQueue c m k j) = q (freeQueue c m k j) ∧
    ∀ ii < c.poolN, q' (mallocQueue c k ii j) = q (mallocQueue c k ii j)

/-- Between `q` and `q'` slot `ii` of core `k` got what `m` had for that core. -/
def PassedTo (c : Config) (m k ii : Nat) (q q' : QueueId → List Nat) : Prop :=
  ∀ j, q' (freeQueue c m k j) = [] ∧
    q' (mallocQueue c k ii j) = q (mallocQueue c k ii j) ++ q (freeQueue c m k j)

/-- What the loops do to core `k`. -/
def CoreDone (c : Config) (g : GlobalMemoryManager) (m i k : Nat) (q q' : QueueId → List Nat) :
    Prop :=
  (∀ ii < c.poolN, ¬ Accepts c g i k ii) ∧ SameLists c m k q q' ∨
    ∃ ii < c.poolN, Accepts c g i k ii ∧ PassedTo c m k ii q q'

/-- What a hand-back owes: the blocks of every core with another idle manager are with one of
its idle managers, and those of the other cores stay. -/
def HandsBack (c : Config) (g : GlobalMemoryManager) (m : Nat) (q q' : QueueId → List Nat) : Prop :=
  ∀ k < c.coreN,
    ((∃ ii < c.poolN, OtherIdle c g m k ii) →
      ∃ ii < c.poolN, OtherIdle c g m k ii ∧ PassedTo c m k ii q q') ∧
    ((∀ ii < c.poolN, ¬ OtherIdle c g m k ii) →
      ∀ j, q' (freeQueue c m k j) = q (freeQueue c m k j))

section Lists

variable {c : Config} {g : GlobalMemoryManager} {m i k k' ii : Nat} {q q' q'' : QueueId → List Nat}

theorem SameLists.refl (q : QueueId → List Nat) : SameLists c m k q q := fun _ =>
  ⟨rfl, fun _ _ => rfl⟩

theorem SameLists.trans (h : SameLists c m k q q') (h' : SameLists c m k q' q'') :
    SameLists c m k q q'' := fun j =>
  ⟨(h' j).1.trans (h j).1, fun ii hii => ((h' j).2 ii hii).trans ((h j).2 ii hii)⟩

theorem PassedTo.after (hii : ii < c.poolN) (h : SameLists c m k q q')
    (h' : PassedTo c m k ii q' q'') : PassedTo c m k ii q q'' := by
  intro j
  obtain ⟨hfree, hmalloc⟩ := h j
  obtain ⟨hnil, happend⟩ := h' j
  rw [hfree, hmalloc ii hii] at happend
  exact ⟨hnil, happend⟩

theorem PassedTo.before (hii : ii < c.poolN) (h : PassedTo c m k ii q q')
    (h' : SameLists c m k q' q'') : PassedTo c m k ii q q'' := by
  intro j
  obtain ⟨hfree, hmalloc⟩ := h' j
  obtain ⟨hnil, happend⟩ := h j
  exact ⟨hfree.trans hnil, (hmalloc ii hii).trans happend⟩

theorem CoreDone.after (h : SameLists c m k q q') (h' : CoreDone c g m i k q' q'') :
    CoreDone c g m i k q q'' := by
  cases h' with
  | inl hkept => exact Or.inl ⟨hkept.1, h.trans hkept.2⟩
  | inr hpassed =>
      obtain ⟨ii, hii, haccepts, hpassed⟩ := hpassed
      exact Or.inr ⟨ii, hii, haccepts, hpassed.after hii h⟩

theorem CoreDone.before (h : CoreDone c g m i k q q') (h' : SameLists c m k q' q'') :
    CoreDone c g m i k q q'' := by
  cases h with
  | inl hkept => exact Or.inl ⟨hkept.1, hkept.2.trans h'⟩
  | inr hpassed =>
      obtain ⟨ii, hii, haccepts, hpassed⟩ := hpassed
      exact Or.inr ⟨ii, hii, haccepts, hpassed.before hii h'⟩

/-- The slot number gives away the core. -/
theorem core_of_slot {ii' : Nat} (hii : ii < c.poolN) (hii' : ii' < c.poolN)
    (heq : c.poolN * k + ii = c.poolN * k' + ii') : k = k' := by
  have hdiv : (c.poolN * k + ii) / c.poolN = k := slot_div hii
  rw [← hdiv, heq, slot_div hii']

/-- A join into a manager of core `k` leaves the lists of the other cores alone. -/
theorem sameLists_joined (hm : m < managerN c) (hk : k < c.coreN) (hk' : k' < c.coreN)
    (hii : ii < c.poolN) (hne : k' ≠ k) :
    SameLists c m k' q (Rep.joined q (managerPools c (c.poolN * k + ii)).mallocList
      ((managerPools c m).freeLists k)) := by
  have hslot := slot_lt hk hii
  intro j
  constructor
  · have h₁ := (mallocList_ne_freeLists (k := k') hslot hm hk').symm
    have h₂ : (managerPools c m).freeLists k' ≠ (managerPools c m).freeLists k := fun heq =>
      hne (freeLists_inj hm hm hk' hk heq).2
    exact Rep.joined_of_ne h₁ h₂
  · intro ii' hii'
    have hslot' := slot_lt hk' hii'
    have h₁ : (managerPools c (c.poolN * k' + ii')).mallocList ≠
        (managerPools c (c.poolN * k + ii)).mallocList := fun heq =>
      hne (core_of_slot hii' hii (mallocList_inj hslot' hslot heq))
    exact Rep.joined_of_ne h₁ (mallocList_ne_freeLists hslot' hm hk)

/-- A join passes everything on. -/
theorem passedTo_joined (hm : m < managerN c) (hk : k < c.coreN) (hii : ii < c.poolN) :
    PassedTo c m k ii q (Rep.joined q (managerPools c (c.poolN * k + ii)).mallocList
      ((managerPools c m).freeLists k)) := by
  have hne := (mallocList_ne_freeLists (k := k) (slot_lt hk hii) hm hk).symm
  exact fun j => ⟨Rep.joined_emptied hne, Rep.joined_self⟩

end Lists

/-! ### The loops -/

section Loops

variable {c : Config} {g : GlobalMemoryManager} {N : Set Nat} {s : Store ListId}
  {q : QueueId → List Nat} {m i k : Nat}

/-- **The loop over the slots of one core**: the first slot that accepts gets everything,
and the joins after it find nothing left. -/
theorem handBackTo_loop (hm : m < managerN c) (hk : k < c.coreN) (h : Sound N s q) :
    ∃ q', Moved N s (forRange c.poolN (fun ii s => handBackTo c g m i k ii s) s) q' ∧
      ((∀ ii < c.poolN, ¬ Accepts c g i k ii) ∧ q' = q ∨
        ∃ ii < c.poolN, Accepts c g i k ii ∧ q' = Rep.joined q
          (managerPools c (c.poolN * k + ii)).mallocList ((managerPools c m).freeLists k)) := by
  refine forRange_invariant (fun n s' => ∃ q', Moved N s s' q' ∧
    ((∀ ii < n, ¬ Accepts c g i k ii) ∧ q' = q ∨
      ∃ ii < n, Accepts c g i k ii ∧ q' = Rep.joined q
        (managerPools c (c.poolN * k + ii)).mallocList ((managerPools c m).freeLists k)))
    ⟨q, h.refl, Or.inl ⟨fun ii hii => absurd hii (Nat.not_lt_zero ii), rfl⟩⟩ ?_
  intro n hn s' ⟨q', hmoved, hq'⟩
  have hslot := slot_lt hk hn
  have hne := mallocList_ne_freeLists (k := k) hslot hm hk
  by_cases haccepts : Accepts c g i k n
  · have hstep : handBackTo c g m i k n s' =
        s'.join (managerPools c (c.poolN * k + n)).mallocList ((managerPools c m).freeLists k) := by
      rw [handBackTo, if_neg (Ne.symm haccepts.1), if_pos (by simp [haccepts.2])]
      rfl
    rw [hstep]
    refine ⟨_, Sound.trans hmoved (hmoved.sound.join hne), Or.inr ?_⟩
    cases hq' with
    | inl hnone => exact ⟨n, Nat.lt_succ_self n, haccepts, by rw [hnone.2]⟩
    | inr hfirst =>
        obtain ⟨ii, hii, hfirst, rfl⟩ := hfirst
        refine ⟨ii, Nat.lt_succ_of_lt hii, hfirst, ?_⟩
        -- what is joined now is empty
        have hempty := fun j => (passedTo_joined (q := q) hm hk (Nat.lt_trans hii hn) j).1
        exact Rep.joined_of_nil hempty
  · have hstep : handBackTo c g m i k n s' = s' := by
      unfold handBackTo
      by_cases hi : i = n
      · rw [if_pos hi]
      · have hleased : g.poolFlags (c.poolN * k + n) = true := by
          by_contra hidle
          exact haccepts ⟨Ne.symm hi, by simpa using hidle⟩
        rw [if_neg hi, hleased]
        rfl
    rw [hstep]
    refine ⟨q', hmoved, ?_⟩
    cases hq' with
    | inl hnone =>
        refine Or.inl ⟨fun ii hii => ?_, hnone.2⟩
        cases Nat.lt_or_eq_of_le (Nat.le_of_lt_succ hii) with
        | inl hlt => exact hnone.1 ii hlt
        | inr heq => rwa [heq]
    | inr hfirst =>
        obtain ⟨ii, hii, hrest⟩ := hfirst
        exact Or.inr ⟨ii, Nat.lt_succ_of_lt hii, hrest⟩

/-- **The loop over the cores**: each core is done once, on the lists as they were. -/
theorem handBack_done (hm : m < managerN c) (h : Sound N s q) :
    ∃ q', Moved N s (handBack c g m i s) q' ∧ ∀ k < c.coreN, CoreDone c g m i k q q' := by
  have hloop : ∃ q', Moved N s (handBack c g m i s) q' ∧ (∀ k < c.coreN, CoreDone c g m i k q q') ∧
      ∀ k, c.coreN ≤ k → k < c.coreN → SameLists c m k q q' := by
    refine forRange_invariant (fun n s' => ∃ q', Moved N s s' q' ∧
      (∀ k < n, CoreDone c g m i k q q') ∧ ∀ k, n ≤ k → k < c.coreN → SameLists c m k q q')
      ⟨q, h.refl, fun k hk => absurd hk (Nat.not_lt_zero k), fun k _ _ => SameLists.refl q⟩ ?_
    intro n hn s' ⟨q', hmoved, hdone, hrest⟩
    obtain ⟨q'', hmoved', hround⟩ := handBackTo_loop (g := g) (i := i) hm hn hmoved.sound
    have hother : ∀ k < c.coreN, k ≠ n → SameLists c m k q' q'' := by
      intro k hk hkn
      cases hround with
      | inl hnone =>
          rw [hnone.2]
          exact SameLists.refl q'
      | inr hfirst =>
          obtain ⟨ii, hii, -, rfl⟩ := hfirst
          exact sameLists_joined hm hn hk hii hkn
    have hthis : CoreDone c g m i n q' q'' := by
      cases hround with
      | inl hnone =>
          rw [hnone.2]
          exact Or.inl ⟨hnone.1, SameLists.refl q'⟩
      | inr hfirst =>
          obtain ⟨ii, hii, haccepts, rfl⟩ := hfirst
          exact Or.inr ⟨ii, hii, haccepts, passedTo_joined hm hn hii⟩
    refine ⟨q'', Sound.trans hmoved hmoved', fun k hk => ?_, fun k hk hkc => ?_⟩
    · by_cases hkn : k = n
      · rw [hkn]
        exact hthis.after (hrest n (Nat.le_refl n) hn)
      · have hlt : k < n := by omega
        exact (hdone k hlt).before (hother k (Nat.lt_trans hlt hn) hkn)
    · exact (hrest k (by omega) hkc).trans (hother k hkc (by omega))
  obtain ⟨q', hmoved, hdone, -⟩ := hloop
  exact ⟨q', hmoved, hdone⟩

end Loops

/-! ### Stranded blocks -/

section Stranded

variable {c : Config} {g : GlobalMemoryManager} {N : Set Nat} {s : Store ListId}
  {q q' : QueueId → List Nat} {m k ii : Nat}

theorem otherIdle_iff (hleased : g.poolFlags m = true) :
    OtherIdle c g m k ii ↔ g.poolFlags (c.poolN * k + ii) = false := by
  refine ⟨fun hidle => hidle.1, fun hidle => ⟨hidle, fun heq => ?_⟩⟩
  rw [heq, hleased] at hidle
  exact absurd hidle (by decide)

/-- The loop passes blocks to the other idle managers, those in the slot of `m` apart. -/
theorem accepts_iff (hleased : g.poolFlags m = true) :
    Accepts c g (m % c.poolN) k ii ↔ OtherIdle c g m k ii ∧ ii ≠ m % c.poolN := by
  rw [otherIdle_iff hleased, Accepts, and_comm]

/-- **The effect of `FreeLocalMemoryManager`** on the lists of each core. -/
theorem freeLocalMemoryManager_done (hm : m < managerN c) (hleased : g.poolFlags m = true)
    (hoff : -1 ≤ g.freeOffset) (h : Sound N s q) :
    ∃ q', Rep N (freeLocalMemoryManager c g s m).2 q' ∧
      ∀ k < c.coreN, CoreDone c g m (m % c.poolN) k q q' := by
  obtain ⟨q', hmoved, hdone⟩ := handBack_done
    (g := { g with freeOffset := nextOffset g.freeOffset c.coreN }) (i := m % c.poolN) hm h
  rw [freeLocalMemoryManager_spec hoff hm hleased]
  exact ⟨q', hmoved.sound.toRep, hdone⟩

/-- A core whose blocks were handed back has an idle manager in another slot than `m`. -/
theorem other_slot_of_handsBack (hm : m < managerN c) (hleased : g.poolFlags m = true)
    (hoff : -1 ≤ g.freeOffset) (h : Sound N s q)
    (hrep : Rep N (freeLocalMemoryManager c g s m).2 q') (hback : HandsBack c g m q q')
    (hk : k < c.coreN) (hidle : ∃ ii < c.poolN, OtherIdle c g m k ii) :
    (∃ ii < c.poolN, OtherIdle c g m k ii ∧ ii ≠ m % c.poolN) ∨
      ∀ j, q (freeQueue c m k j) = [] := by
  obtain ⟨q₁, hrep₁, hdone⟩ := freeLocalMemoryManager_done hm hleased hoff h
  obtain rfl := hrep.linked.unique hrep₁.linked
  cases hdone k hk with
  | inl hkept =>
      -- nothing left `m`, so there was nothing to hand back
      obtain ⟨ii, hii, -, hpassed⟩ := (hback k hk).1 hidle
      refine Or.inr fun j => ?_
      rw [← (hkept.2 j).1, (hpassed j).1]
  | inr hpassed =>
      obtain ⟨ii, hii, hacc, -⟩ := hpassed
      exact Or.inl ⟨ii, hii, (accepts_iff hleased).mp hacc⟩

end Stranded

/-- **A hand-back reaches every core** that has another idle manager just if, on each such core
where `m` has blocks, one of them is in another slot than `m`. -/
theorem handsBack_iff (c : Config) (g : GlobalMemoryManager) (N : Set Nat) (s : Store ListId)
    (q : QueueId → List Nat) (m : Nat) (hm : m < managerN c) (hleased : g.poolFlags m = true)
    (hoff : -1 ≤ g.freeOffset) (h : Sound N s q) :
    (∃ q', Rep N (freeLocalMemoryManager c g s m).2 q' ∧ HandsBack c g m q q') ↔
      ∀ k < c.coreN, (∃ ii < c.poolN, OtherIdle c g m k ii) →
        (∃ ii < c.poolN, OtherIdle c g m k ii ∧ ii ≠ m % c.poolN) ∨
          ∀ j, q (freeQueue c m k j) = [] := by
  constructor
  · intro ⟨q', hrep, hback⟩ k hk hidle
    exact other_slot_of_handsBack hm hleased hoff h hrep hback hk hidle
  · intro hcond
    obtain ⟨q', hrep, hdone⟩ := freeLocalMemoryManager_done hm hleased hoff h
    refine ⟨q', hrep, fun k hk => ⟨fun hidle => ?_, fun hnone j => ?_⟩⟩
    · cases hdone k hk with
      | inr hpassed =>
          obtain ⟨ii, hii, hacc, hpassed⟩ := hpassed
          exact ⟨ii, hii, ((accepts_iff hleased).mp hacc).1, hpassed⟩
      | inl hkept =>
          cases hcond k hk hidle with
          | inl hslot =>
              obtain ⟨ii, hii, hslot⟩ := hslot
              exact absurd ((accepts_iff hleased).mpr hslot) (hkept.1 ii hii)
          | inr hnil =>
              obtain ⟨ii, hii, hidle⟩ := hidle
              refine ⟨ii, hii, hidle, fun j => ⟨(hkept.2 j).1.trans (hnil j), ?_⟩⟩
              rw [(hkept.2 j).2 ii hii, hnil, List.append_nil]
    · cases hdone k hk with
      | inl hkept => exact (hkept.2 j).1
      | inr hpassed =>
          obtain ⟨ii, hii, hacc, -⟩ := hpassed
          exact absurd ((accepts_iff hleased).mp hacc).1 (hnone ii hii)

/-! Two cores. Manager 0 is leased and holds a block of core 1. -/

theorem two_cores : 0 < 2 ∧ 2 < 2 ^ 31 := by decide

theorem one_slot : 0 < 1 := by decide

/-- Two cores with one slot each. -/
def twoCores : Config :=
  mainInit 2 4096 1 .setDefault none none none two_cores one_slot MmapManager.page_4096

def firstLeased : GlobalMemoryManager := ⟨fun j => decide (j = 0), -1, -1⟩

/-- Memory with the header of a block of 8 bytes, for core 1, at 4096. -/
def oneHeader : Store ListId := ⟨writeHeader (fun _ => 0) 4096 2 1 8, fun _ => .init, 0⟩

theorem oneHeader_sound : Sound {4096} oneHeader (fun _ => []) where
  nodes _ _ ha := absurd ha List.not_mem_nil
  linked := Linked.empty
  loose a ha _ := by
    rw [Set.mem_singleton_iff.mp ha]
    exact writeHeader_next
  headers := by
    refine ⟨fun a ha => ?_, fun a ha => ?_, fun a ha b hb hne => ?_⟩
    · rw [Set.mem_singleton_iff.mp ha]
      decide
    · rw [Set.mem_singleton_iff.mp ha]
      decide
    · exact absurd ((Set.mem_singleton_iff.mp ha).trans (Set.mem_singleton_iff.mp hb).symm) hne
  body a ha := by
    rw [Set.mem_singleton_iff.mp ha]
    have hheaded : Headed twoCores (writeHeader (fun _ => 0) 4096 twoCores.coreN 1 8) ⟨4096, 1, 8⟩ :=
      writeHeader_headed (by decide) (by decide) (by decide)
    exact hheaded.bodyAddr

theorem stranded_sound : Sound {4096} (oneHeader.push (.memoryPools 2) 3 4096)
    (enqueue (fun _ => []) (.memoryPools 2, 3) [4096]) :=
  (oneHeader_sound.push (Set.mem_singleton 4096) fun _ => List.not_mem_nil).sound

theorem two_slots : 0 < 2 := by decide

/-- Two cores with two slots each. -/
def twoSlots : Config :=
  mainInit 2 4096 2 .setDefault none none none two_cores two_slots MmapManager.page_4096

/-- With a second slot on core 1, which is idle too, the block gets to an idle manager there. -/
theorem handsBack_twoSlots : ∃ q',
    Rep {4096} (freeLocalMemoryManager twoSlots firstLeased
      (oneHeader.push (.memoryPools 2) 3 4096) 0).2 q' ∧
    HandsBack twoSlots firstLeased 0 (enqueue (fun _ => []) (.memoryPools 2, 3) [4096]) q' ∧
    q' (.memoryPools 2, 3) = [] ∧ ∃ ii < 2, q' (mallocQueue twoSlots 1 ii 3) = [4096] := by
  have hother : ∀ k, OtherIdle twoSlots firstLeased 0 k 1 := by
    intro k
    have hne : twoSlots.poolN * k + 1 ≠ 0 := Nat.succ_ne_zero _
    exact ⟨decide_eq_false hne, hne⟩
  obtain ⟨q', hrep, hback⟩ := (handsBack_iff twoSlots firstLeased {4096} _ _ 0 (by decide) rfl
    (by decide) stranded_sound).mpr fun k _ _ => Or.inl ⟨1, by decide, hother k, by decide⟩
  have hfree : freeQueue twoSlots 0 1 3 = (.memoryPools 2, 3) := by
    rw [freeQueue, freeLists_manager (by decide) (by decide)]
    rfl
  obtain ⟨ii, hii, -, hpassed⟩ := (hback 1 (by decide)).1 ⟨1, by decide, hother 1⟩
  obtain ⟨hnil, hmoved⟩ := hpassed 3
  have hempty : (enqueue (fun _ => []) (.memoryPools 2, 3) [4096] : QueueId → List Nat)
      (mallocQueue twoSlots 1 ii 3) = [] := by
    have hapart : (managerPools twoSlots (twoSlots.poolN * 1 + ii)).mallocList ≠
        (managerPools twoSlots 0).freeLists 1 :=
      mallocList_ne_freeLists (slot_lt (by decide) hii) (by decide) (by decide)
    have hne : mallocQueue twoSlots 1 ii 3 ≠ (.memoryPools 2, 3) := fun heq =>
      hapart (congrArg Prod.fst (heq.trans hfree.symm))
    rw [enqueue, Function.update_of_ne hne]
  rw [hempty, hfree, enqueue, Function.update_self] at hmoved
  exact ⟨q', hrep, hback, hfree ▸ hnil, ii, hii, hmoved⟩

/-- The idle manager of core 1 is in the slot of manager 0: the block stays where it is. -/
theorem not_handsBack : ¬ ∀ (c : Config) (g : GlobalMemoryManager) (N : Set Nat)
    (s : Store ListId) (q : QueueId → List Nat) (m : Nat), m < managerN c → g.poolFlags m = true →
      -1 ≤ g.freeOffset → Sound N s q →
      ∃ q', Rep N (freeLocalMemoryManager c g s m).2 q' ∧ HandsBack c g m q q' := by
  intro h
  obtain ⟨q', hrep, hback⟩ :=
    h twoCores firstLeased {4096} _ _ 0 (by decide) rfl (by decide) stranded_sound
  have hcond := other_slot_of_handsBack (k := 1) (by decide) rfl (by decide) stranded_sound hrep
    hback (by decide) ⟨0, by decide, rfl, by decide⟩
  cases hcond with
  | inl hslot =>
      obtain ⟨ii, hii, -, hne⟩ := hslot
      have hzero : ii = 0 := Nat.lt_one_iff.mp hii
      exact hne hzero
  | inr hnil =>
      have hqueue := hnil 3
      have hfree : freeQueue twoCores 0 1 3 = (.memoryPools 2, 3) := by
        rw [freeQueue, freeLists_manager (by decide) (by decide)]
        rfl
      rw [hfree, enqueue, Function.update_self] at hqueue
      exact absurd hqueue (by decide)

end GlobalMemoryManager

end FCMalloc
