import FCMalloc.FirstTouch
import FCMalloc.HeapGrowth

/-!
# FCMalloc.MappedMemory

Where the allocator writes: into memory it has mapped, and nowhere else.

Headers and bodies lie in ranges the arenas have handed out, these in mappings, and first touch
clears an arena that is mapped. `Confined` says of two processes that the second came from the
first by such writes; every piece of a call is.
-/

namespace FCMalloc

open ByteMemory GlobalMemoryManager LocalMemoryManager

/-- The address is in no mapping. -/
def MmapManager.Unmapped (mm : MmapManager) (x : Nat) : Prop := ∀ e ∈ mm.maps, x ∉ e

/-- What was mapped stays mapped, and the memory outside all mappings is the same. -/
structure Confined (s s' : Process) : Prop where
  maps : ∀ e ∈ s.mm.maps, e ∈ s'.mm.maps
  outside : ∀ x, s'.mm.Unmapped x → s'.store.mem x = s.store.mem x

theorem Confined.refl (s : Process) : Confined s s := ⟨fun _ he => he, fun _ _ => rfl⟩

theorem Confined.trans {s s' s'' : Process} (h : Confined s s') (h' : Confined s' s'') :
    Confined s s'' where
  maps e he := h'.maps e (h.maps e he)
  outside x hx := (h'.outside x hx).trans (h.outside x fun e he => hx e (h'.maps e he))

namespace MmapManager

variable {c : Config} {main : Bool} {mm mm' : MmapManager} {core size ret x : Nat}
  {served : Option Nat} {touched : List Nat}

theorem mem_recordMap {maps : List Extent} {len : Nat} {e : Extent} (he : e ∈ maps) :
    e ∈ recordMap maps ret len := by
  unfold recordMap
  split
  · exact he
  · exact List.mem_cons_of_mem _ he

/-- `Malloc` unmaps nothing. -/
theorem enter_maps (h : enter c main mm core size ret = some (served, mm', touched)) :
    ∀ e ∈ mm.maps, e ∈ mm'.maps := by
  intro e he
  obtain ⟨⟨mm₁, w⟩, htouch, hr⟩ := Option.map_eq_some_iff.mp h
  obtain ⟨-, -, -, hmaps, -⟩ := touchOnce_frame htouch
  rw [← hmaps] at he
  dsimp only at hr
  split at hr
  · obtain ⟨-, hr⟩ := Prod.mk.inj hr
    obtain ⟨rfl, -⟩ := Prod.mk.inj hr
    exact mem_recordMap he
  · obtain ⟨-, hr⟩ := Prod.mk.inj hr
    obtain ⟨rfl, -⟩ := Prod.mk.inj hr
    exact he

/-- **First touch** clears mapped memory. -/
theorem enter_touched (hinv : ArenaInv c mm) (hcore : core ≤ c.coreN)
    (h : enter c main mm core size ret = some (served, mm', touched)) (hx : mm.Unmapped x) :
    x ∉ touched := by
  intro hin
  obtain ⟨⟨mm₁, w⟩, htouch, hr⟩ := Option.map_eq_some_iff.mp h
  have hw : w = touched := by
    dsimp only at hr
    split at hr <;> exact congrArg (fun r => r.2.2) hr
  subst hw
  have ha : c.arena main core < c.threadN := Config.arena_lt hcore
  obtain ⟨-, -, rfl⟩ | ⟨-, hfirst, -⟩ := touchOnce_cases htouch
  · exact absurd hin List.not_mem_nil
  · have hbound := (hinv.pool_add_size_lt ha).2
    unfold firstTouch at hfirst
    rw [Config.arena_arena] at hfirst
    exact hx _ (hinv.mapped _ ha) (firstTouchLoop_inside (by omega) hfirst x hin)

end MmapManager

namespace HeapInv

variable {c : Config} {main : Bool} {s s' : Process} {q : QueueId → List Nat} {b : Block}
  {mm : MmapManager} {mem : Memory} {core size n p ret x : Nat} {l : ListId}
  {served : Option Nat} {touched : List Nat}

/-- Headers and bodies are mapped. -/
theorem block_mapped (h : HeapInv c s q) (hb : b ∈ s.carved) (hx : s.mm.Unmapped x) :
    x ∉ b.extent := by
  intro hin
  obtain ⟨r, hr, hwithin⟩ := (h.blocks b hb).within
  obtain ⟨e, he, hrange⟩ := h.arena.ranges_mapped r hr
  exact hx e he (hrange.mem (hwithin.mem hin))

/-- **List operations** write into headers. -/
theorem confined_links (h : HeapInv c s q) (hmm : s'.mm = s.mm)
    (hlinks : OnlyLinks (nodes s.carved) s.store.mem s'.store.mem) : Confined s s' := by
  refine ⟨fun _ he => hmm ▸ he, fun x hx => hlinks.of_outside ?_⟩
  rw [hmm] at hx
  rintro a ⟨b, hb, rfl⟩
  have hout := h.block_mapped hb hx
  simp only [Extent.mem_iff, Block.extent] at hout
  omega

/-- **Clients of a block** write into its body. -/
theorem confined_body (h : HeapInv c s q) (hb : b ∈ s.carved)
    (hmem : ∀ x, x < b.body ∨ b.body + b.size ≤ x → mem x = s.store.mem x) :
    Confined s (s.setMem mem) := by
  refine ⟨fun _ he => he, fun x hx => hmem x ?_⟩
  have hout := h.block_mapped hb hx
  simp only [Extent.mem_iff, Block.extent] at hout
  simp only [Block.body]
  omega

/-- **`MmapManager::Malloc`.** -/
theorem confined_touch (h : HeapInv c s q) (hcore : core ≤ c.coreN)
    (henter : s.mm.enter c main core size ret = some (served, mm, touched)) :
    Confined s (s.touch mm touched) where
  maps := MmapManager.enter_maps henter
  outside _ hx :=
    clear_of_not_mem (MmapManager.enter_touched h.arena hcore henter fun e he =>
      hx e (MmapManager.enter_maps henter e he))

/-- **Carving** writes into the range it is granted. -/
theorem confined_carve (h : HeapInv c s q) (hfits : c.TableFits) (hsize : 0 < size)
    (hn : n = c.batch (sizeClass size)) (hcore : core < c.coreN)
    (hgranted : Granted s c p (mmapSize c size n)) (hrun : s.carveInto c l core size n p = some s') :
    Confined s s' := by
  obtain ⟨hbatch, hint⟩ := hfits.batch_eq (sizeClass size)
  have hnonneg := hfits.nonneg (sizeClass size)
  rcases Nat.eq_zero_or_pos n with rfl | hpos
  · have happend := h.sound.toRep.append_null (l := l) (h.queue_nil (i := sizeClass size) (by omega))
    simp only [Process.carveInto, carve_zero, Process.setMem, Option.map_some, List.append_nil,
      happend] at hrun
    obtain rfl := Option.some.inj hrun
    exact .refl s
  have hsizes : BatchSizes c size n := by
    rw [hn]
    exact hfits.batchSizes hsize (by omega)
  have hroom := hsizes.room
  have hend := hgranted.lt
  obtain ⟨t, hcarve, hcarved⟩ := carve_spec (n := n) size s.store.mem hgranted.pos
    (by omega) hcore (by omega)
  have hheaders : Confined s (s.setMem t.mem) := by
    refine ⟨fun _ he => he, fun x hx => hcarved.outside x ?_⟩
    obtain ⟨e, he, hrange⟩ := h.arena.ranges_mapped _ hgranted.range
    have hout : x ∉ (⟨p, mmapSize c size n⟩ : Extent) := fun hin => hx e he (hrange.mem hin)
    simp only [Extent.mem_iff] at hout
    omega
  have h₁ : HeapInv c (s.setMem t.mem) q := by
    refine h.setMem t.mem fun b hb x hx hx' => unwritten hgranted hsizes hcarved b hb x ⟨hx, ?_⟩
    simp only [Block.extent]
    omega
  simp only [Process.carveInto, hcarve, Option.map_some] at hrun
  obtain rfl := Option.some.inj hrun
  exact hheaders.trans (h₁.confined_links rfl (Rep.append_onlyLinks h.sound.nodes h₁.sound.linked))

/-- **The end of `Realloc`.** -/
theorem confined_moveBody {b' : Block} (h : HeapInv c s q) (m : LocalMemoryManager)
    (hb : b ∈ s.carved) (hb' : b' ∈ s.carved) (hfits : b.size ≤ b'.size)
    (hloose : ¬ Queued q b.addr) : Confined s (m.moveBody s b'.body b.body b.size) := by
  have hmem : ∀ x, x < b'.body ∨ b'.body + b'.size ≤ x →
      copy s.store.mem b'.body b.body b.size x = s.store.mem x := fun x hx =>
    copy_of_outside (by omega)
  have hcopied := h.setMem_body hb' hmem
  exact (h.confined_body hb' hmem).trans
    (hcopied.confined_links rfl (hcopied.free_moved m hb hloose).links)

end HeapInv

end FCMalloc
