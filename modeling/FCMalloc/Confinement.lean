import FCMalloc.ClientRefinement

/-!
# FCMalloc.Confinement

The allocator writes into memory it has mapped, and nowhere else.

A step works behind the scenes, which is `Confined`, frees a block, or returns from `Malloc`
to a caller that fills or copies the new body. Headers and bodies lie in ranges the arenas
handed out, so an address outside all mappings has, after any run, the last value the program
itself wrote there (`memory_confined`).
-/

namespace FCMalloc.Machine

open ByteMemory GlobalMemoryManager LocalMemoryManager

section Step

variable {c : Config} {main : Bool} {s s' : Shared} {th : Thread} {q : QueueId → List Nat}
  {a : Action} {r : Request} {ptr x : Nat}

/-- **The callers of `Malloc`** write into the new body, and `realloc` frees the old block. -/
theorem Popped.confined (hpop : Popped c s q r ptr) (hsize : r.size < 2 ^ 64)
    (hgrow : Growing s r) : Confined s.heap (s.finish c r ptr).heap := by
  cases hpop with
  | null => exact .refl _
  | @block b hb _ hclass hheap hothers hdead _ _ _ _ =>
      have hfits : r.size ≤ b.size := by
        rw [hclass, sizeClass_val]
        exact le_two_pow_logarithm2 hsize
      rw [Shared.finish]
      dsimp only
      rw [if_neg (HeapInv.body_ne_zero b)]
      split
      · exact .refl _
      · exact hheap.confined_body hb fun x hx => fill_of_outside (by omega)
      case h_3 old preSize hcaller =>
        obtain ⟨hlive, hless, b₀, hb₀, rfl, rfl⟩ := hgrow old preSize hcaller
        have hne : b₀ ≠ b := by
          rintro rfl
          exact hdead hlive
        exact hheap.confined_moveBody (r.lm c) hb₀ hb (by omega) ((hothers b₀ hb₀ hne).mp hlive)

/-- **Every effect** but a write of the program stays in mapped memory. -/
theorem Effect.confined (heffect : Effect c s th a s') (hown : Owned c s q)
    (hnot : ∀ x v, a ≠ .store x v) : Confined s.heap s'.heap := by
  cases heffect with
  | quiet hquiet _ _ => exact hquiet.confined
  | keep _ _ hs => exact hs ▸ .refl _
  | @answer r _ _ _ hr hanswers =>
      cases hanswers with
      | waits hquiet => exact hquiet.confined
      | @returns s₁ q₁ ptr hquiet hpop hs =>
          have hgrow : Growing s₁ r := by
            intro old preSize heq
            obtain ⟨hlive, hless, b, hb, hbody⟩ := hr.grows old preSize heq
            exact ⟨hquiet.live ▸ hlive, hless, b, hquiet.carved.subset hb, hbody⟩
          exact hs ▸ hquiet.confined.trans (hpop.confined hr.size_lt hgrow)
  | @free j ptr hj _ hlive _ hs =>
      obtain ⟨b, hb, rfl⟩ := hown.live_carved ptr hlive
      have hmoved := hown.heap.free_moved (managerPools c j) hb ((hown.live_iff b hb).mp hlive)
      exact hs ▸ hown.heap.confined_links rfl hmoved.links
  | @store x v ha _ => exact absurd ha (hnot x v)

theorem Caller.answer_ne_write (caller : Caller) (e : Returned) (y : Nat) (u : UInt8) :
    caller.answer e ≠ .write y u := by
  unfold Caller.answer
  split
  · simp
  · cases caller <;> simp

/-- Only a write of the program shows as one. -/
theorem seen_ne_write (hnot : ∀ x v, a ≠ .store x v) (y : Nat) (u : UInt8) :
    seen s th a s' ≠ .write y u := by
  unfold seen
  split
  case h_1 x v => exact absurd rfl (hnot x v)
  · simp
  case h_3 _ _ caller _ _ _ =>
    split
    · simp
    · cases s'.returned.head? with
      | none => simp
      | some e => exact caller.answer_ne_write e y u
  · simp

/-- **One step**: an address that is not mapped changes by the program's own writes. -/
theorem Effect.unmapped (heffect : Effect c s th a s') (hown : Owned c s q)
    (hx : s'.heap.mm.Unmapped x) (es : List (HeapEvent UInt8)) (v : UInt8)
    (hbefore : s.heap.mm.Unmapped x →
      s.heap.store.mem x = (HeapEvent.lastWrite x es).getD v) :
    s'.heap.store.mem x = (HeapEvent.lastWrite x (es ++ [seen s th a s'])).getD v := by
  by_cases hstore : ∃ y u, a = .store y u
  · obtain ⟨y, u, rfl⟩ := hstore
    cases heffect with
    | quiet _ _ hnot | answer _ hnot _ _ _ | free _ _ _ hnot _ => exact absurd rfl (hnot y u)
    | store ha hs =>
        obtain ⟨rfl, rfl⟩ := Action.store.inj ha
        subst hs
        rw [HeapEvent.lastWrite_snoc]
        show Function.update s.heap.store.mem y u x =
          (if y = x then some u else HeapEvent.lastWrite x es).getD v
        rw [Function.update_apply]
        by_cases hy : x = y
        · rw [if_pos hy, if_pos hy.symm, Option.getD_some]
        · rw [if_neg hy, if_neg (Ne.symm hy)]
          exact hbefore hx
    | keep ha _ _ => exact absurd ha (by simp)
  · have hnot : ∀ y u, a ≠ .store y u := fun y u ha => hstore ⟨y, u, ha⟩
    have hconfined := heffect.confined hown hnot
    rw [HeapEvent.lastWrite_snoc_of_ne (seen_ne_write hnot), hconfined.outside x hx]
    exact hbefore fun e he => hx e (hconfined.maps e he)

end Step

section Runs

variable {c : Config} {base : Nat → Nat} {w w' : World} {es : List (HeapEvent UInt8)}

/-- **A run**, for one address. -/
theorem unmapped_run (hc : Setting c) (hinv : OwnershipInv c w)
    (hpath : Traced ((system c base).Sees (Legal c) event) w es w') (x : Nat) :
    OwnershipInv c w' ∧ (w'.shared.heap.mm.Unmapped x →
      w'.shared.heap.store.mem x =
        (HeapEvent.lastWrite x es).getD (w.shared.heap.store.mem x)) := by
  induction hpath with
  | nil => exact ⟨hinv, fun _ => rfl⟩
  | @snoc es _ w₁ w₂ _ hstep ih =>
      obtain ⟨hinv₁, hbefore⟩ := ih
      obtain ⟨⟨t, a⟩, hlegal, hmade, rfl⟩ := hstep
      obtain ⟨hinv₂, -⟩ := hinv₁.step hc hlegal hmade
      obtain ⟨q, hq⟩ := hinv₁.owned
      obtain ⟨-, -, s, th, hact, hw⟩ := World.step_next hmade
      have hs : w₂.shared = s := by rw [hw, World.commit_shared]
      have heffect := act_effect hc hq (hinv₁.leases t) (hinv₁.frames t) hlegal.act hact
      rw [← hs] at heffect
      exact ⟨hinv₂, fun hx => heffect.unmapped hq hx es _ hbefore⟩

/-- **Confinement.** From every state of every run on, for any number of threads and in any
order of their steps, a byte that lies in no mapping of the allocator is the last one the program
itself has written there. -/
theorem memory_confined [ClzZero] (c : Config) (base : Nat → Nat) (w w' : World)
    (es : List (HeapEvent UInt8)) (hc : Setting c) (hbase : c.FreshBase base)
    (hrun : (system c base).Run (LegalSettled c) w)
    (hpath : Traced ((system c base).Sees (LegalSettled c) event) w es w') (x : Nat)
    (hx : ∀ e ∈ w'.shared.heap.mm.maps, x ∉ e) :
    w'.shared.heap.store.mem x =
      (HeapEvent.lastWrite x es).getD (w.shared.heap.store.mem x) := by
  obtain ⟨hinv, hsettled⟩ := settled_run hc hbase ((run_iff hc hbase).mp hrun)
  exact (unmapped_run hc hinv (path_noted hc hinv hsettled hpath) x).2 hx

/-- In `carveRun` thread 1 makes its arena be touched and carved. The page below the
arena stays as it was. -/
theorem memory_confined_carveRun :
    (Option.get _ carveRun_made).shared.heap.store.mem 4096 = 0 := by
  have hbyte := memory_confined MmapManager.oneCore MmapManager.oneCoreBase _ _ _ oneCore_setting
    (by decide) (.start ⟨_, rfl⟩) carveRun_traced 4096 (by decide +kernel)
  exact hbyte.trans rfl

end Runs

end FCMalloc.Machine
