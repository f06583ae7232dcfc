import FCMalloc.Library.LinkedChain
import FCMalloc.Library.QueueFamily

/-!
# Intrusive queues

A family of queues threaded through one successor function. Queue `k` is known
only by a cached first node `head k` and a cached last node `last k`, both `null`
when it is empty. `Linked` says that these caches and the successor function
represent the family `q` of node lists, and that no node is on two of them.

Each pointer operation is one theorem: `Linked.cut` cuts off a front (`Linked.pop` one node),
`Linked.concat` moves one queue behind another, `Linked.swap` exchanges two. A
node or a chain that is on no queue yet enters as an extra queue of the family
(`Linked.attach`) and is then moved by `concat`.
-/

variable {κ κ' α : Type*}

/-- The caches `head`, `last` and the successor function represent the queues `q`. -/
structure Linked (null : α) (next : α → α) (head last : κ → α) (q : κ → List α) : Prop where
  chain : ∀ k, Chain null next (head k) (q k)
  last_eq : ∀ k, last k = (q k).getLastD null
  sep : Separated q

namespace Linked

variable {null : α} {next next' : α → α} {head last : κ → α} {q : κ → List α} {i j k : κ} {a : α}

theorem head_eq_null_iff (h : Linked null next head last q) : head k = null ↔ q k = [] :=
  (h.chain k).head_eq_null_iff

theorem last_eq_null_iff (h : Linked null next head last q) : last k = null ↔ q k = [] := by
  rw [h.last_eq k]
  rcases List.eq_nil_or_concat' (q k) with hq | ⟨l, z, hq⟩
  · simp [hq]
  · have hz : z ≠ null := (h.chain k).ne_null z (by simp [hq])
    simp [hq, hz]

/-- The representation depends on the successor function only at queued nodes. -/
theorem congr (hag : ∀ k, ∀ a ∈ q k, next' a = next a) (h : Linked null next head last q) :
    Linked null next' head last q :=
  ⟨fun k => (h.chain k).congr (hag k), h.last_eq, h.sep⟩

/-- The caches and the successor function determine the queues. -/
theorem unique {q' : κ → List α} (h : Linked null next head last q)
    (h' : Linked null next head last q') : q = q' :=
  funext fun k => (h.chain k).unique (h'.chain k)

/-- The queues determine the caches. -/
theorem caches_unique {head' last' : κ → α} (h : Linked null next head last q)
    (h' : Linked null next' head' last' q) : head = head' ∧ last = last' := by
  constructor
  · funext k
    have hk := h.chain k
    have hk' := h'.chain k
    cases hq : q k with
    | nil =>
        rw [hq] at hk hk'
        exact hk.trans hk'.symm
    | cons a t =>
        rw [hq] at hk hk'
        exact hk.1.trans hk'.1.symm
  · funext k
    rw [h.last_eq k, h'.last_eq k]

/-- A subfamily of a represented family is represented. -/
theorem comp {f : κ' → κ} (hf : Function.Injective f) (h : Linked null next head last q) :
    Linked null next (head ∘ f) (last ∘ f) (q ∘ f) :=
  ⟨fun k => h.chain (f k), fun k => h.last_eq (f k), fun k => h.sep.nodup (f k),
    fun k k' hne => h.sep.disjoint (f k) (f k') (hf.ne hne)⟩

theorem empty : Linked null next (fun _ : κ => null) (fun _ => null) (fun _ => []) :=
  ⟨fun _ => rfl, fun _ => rfl, Separated.empty⟩

/-- A chain of nodes on no queue joins the family as one more queue. -/
theorem attach {h₀ l₀ : α} {c : List α} (h : Linked null next head last q)
    (hc : Chain null next h₀ c) (hl : l₀ = c.getLastD null) (hnd : c.Nodup)
    (hfresh : ∀ a ∈ c, ∀ k, a ∉ q k) :
    Linked null next (fun o : Option κ => o.elim h₀ head) (fun o => o.elim l₀ last)
      (fun o => o.elim c q) where
  chain
    | none => hc
    | some k => h.chain k
  last_eq
    | none => hl
    | some k => h.last_eq k
  sep :=
    { nodup := fun
        | none => hnd
        | some k => h.sep.nodup k
      disjoint := fun
        | none, none, hne, _, _ => absurd rfl hne
        | none, some k, _, a, ha => hfresh a ha k
        | some k, none, _, a, ha => fun hac => hfresh a hac k ha
        | some k, some k', hne, a, ha =>
            h.sep.disjoint k k' (fun heq => hne (congrArg some heq)) a ha }

/-- Forgetting the queue added by `attach`. -/
theorem detach {head last : Option κ → α} {q : Option κ → List α}
    (h : Linked null next head last q) :
    Linked null next (fun k => head (some k)) (fun k => last (some k)) (fun k => q (some k)) :=
  h.comp fun _ _ => Option.some.inj

variable [DecidableEq κ]

/-- **Cutting** a queue behind its node `z`: `z` is pointed at `null`, its successor becomes
the head, and an emptied queue forgets its last node. What is cut off is a chain. -/
theorem cut [DecidableEq α] {z : α} {xs t : List α} (h : Linked null next head last q)
    (hq : q i = xs ++ z :: t) :
    Linked null (Function.update next z null) (Function.update head i (next z))
      (Function.update last i (if next z = null then null else last i))
      (Function.update q i t) ∧
    Chain null (Function.update next z null) (head i) (xs ++ [z]) := by
  have hnd : (xs ++ z :: t).Nodup := hq ▸ h.sep.nodup i
  have hchain : Chain null next (head i) (xs ++ z :: t) := hq ▸ h.chain i
  have htail : Chain null next (next z) t := hchain.behind
  have hzxs : z ∉ xs := fun hz => (List.nodup_append.mp hnd).2.2 z hz z List.mem_cons_self rfl
  have hzt : z ∉ t := (List.nodup_cons.mp (List.nodup_append.mp hnd).2.1).1
  have hsub : t.Sublist (q i) := by
    rw [hq]
    exact (List.sublist_cons_self z t).trans (List.sublist_append_right xs (z :: t))
  have hsep : Separated (Function.update q i t) := h.sep.shrink hsub
  have hold : ∀ {b}, b ≠ z → Function.update next z null b = next b := fun hb =>
    Function.update_of_ne hb _ _
  refine ⟨⟨fun k => ?_, fun k => ?_, hsep⟩, ?_⟩
  · by_cases hk : k = i
    · subst hk
      rw [Function.update_self, Function.update_self]
      exact htail.congr fun b hb => hold fun heq => hzt (heq ▸ hb)
    · rw [Function.update_of_ne hk, Function.update_of_ne hk]
      refine (h.chain k).congr fun b hb => hold fun heq => ?_
      exact h.sep.disjoint i k (Ne.symm hk) z (by simp [hq]) (heq ▸ hb)
  · by_cases hk : k = i
    · subst hk
      have hlast := h.last_eq k
      rw [hq] at hlast
      rw [Function.update_self, Function.update_self]
      -- the last node is that of what is left, and the test on `z` tells if anything is
      cases t with
      | nil =>
          have hnull : next z = null := htail
          simp [hnull]
      | cons b t =>
          have hne : next z ≠ null := by
            rw [htail.1]
            exact htail.2.1
          rw [if_neg hne, hlast]
          simp [List.getLastD_eq_getLast?, List.getLast?_cons]
    · simpa [hk] using h.last_eq k
  · exact hchain.cut (Function.update_self _ _ _) fun a ha => hold fun heq => hzxs (heq ▸ ha)

/-- **Unlinking the first node**. -/
theorem pop [DecidableEq α] {t : List α} (h : Linked null next head last q) (hq : q i = a :: t) :
    Linked null (Function.update next a null) (Function.update head i (next a))
      (Function.update last i (if next a = null then null else last i))
      (Function.update q i t) :=
  (h.cut (hq.trans (List.nil_append (a :: t)).symm)).1

/-- **Concatenation**: the non-empty queue `j` is moved behind queue `i`. If `i` is
empty its caches are overwritten, otherwise its last node is linked to `j`'s first. -/
theorem concat [DecidableEq α] (h : Linked null next head last q) (hij : i ≠ j) (hj : q j ≠ []) :
    Linked null (if head i = null then next else Function.update next (last i) (head j))
      (Function.update (Function.update head i (if head i = null then head j else head i)) j null)
      (Function.update (Function.update last i (last j)) j null)
      (Function.update (Function.update q i (q i ++ q j)) j []) := by
  have hsep : Separated (Function.update (Function.update q i (q i ++ q j)) j []) :=
    h.sep.transfer hij (by simp)
  have hlast : ∀ k, Function.update (Function.update last i (last j)) j null k =
      (Function.update (Function.update q i (q i ++ q j)) j [] k).getLastD null := by
    intro k
    by_cases hkj : k = j
    · subst hkj
      simp
    · by_cases hki : k = i
      · subst hki
        obtain ⟨l, z, hz⟩ := (List.eq_nil_or_concat' (q j)).resolve_left hj
        simp [hkj, h.last_eq j, hz, List.getLastD_eq_getLast?]
      · simpa [hkj, hki] using h.last_eq k
  rcases List.eq_nil_or_concat' (q i) with hi | ⟨l, z, hi⟩
  · -- queue `i` is empty: only the caches move
    have hnull : head i = null := h.head_eq_null_iff.mpr hi
    rw [if_pos hnull, if_pos hnull]
    refine ⟨fun k => ?_, hlast, hsep⟩
    by_cases hkj : k = j
    · subst hkj
      simp
    · by_cases hki : k = i
      · subst hki
        simpa [hkj, hi] using h.chain j
      · simpa [hkj, hki] using h.chain k
  · -- the last node `z` of queue `i` is redirected
    have hnull : head i ≠ null := by
      rw [Ne, h.head_eq_null_iff, hi]
      simp
    have hz : last i = z := by simp [h.last_eq i, hi]
    have hzi : z ∈ q i := by simp [hi]
    have hnd : (l ++ [z]).Nodup := hi ▸ h.sep.nodup i
    have hlz : ∀ b ∈ l, b ≠ z := fun b hb hbz =>
      (List.nodup_append.mp hnd).2.2 b hb z (by simp) hbz
    have hother : ∀ k, k ≠ i → ∀ b ∈ q k, Function.update next z (head j) b = next b :=
      fun k hk b hb => by
        have hbz : b ≠ z := by
          rintro rfl
          exact h.sep.disjoint i k (Ne.symm hk) b hzi hb
        exact Function.update_of_ne hbz _ _
    rw [if_neg hnull, if_neg hnull, hz]
    refine ⟨fun k => ?_, hlast, hsep⟩
    by_cases hkj : k = j
    · subst hkj
      simp
    · by_cases hki : k = i
      · subst hki
        have hlink := Chain.link (hi ▸ h.chain k)
          ((h.chain j).congr (hother j (Ne.symm hij))) (Function.update_self z (head j) next)
          (fun b hb => Function.update_of_ne (hlz b hb) _ _)
        simpa [hkj, hi] using hlink
      · simpa [hkj, hki] using (h.chain k).congr (hother k hki)

/-- **Appending** a chain of nodes on no queue behind queue `i`. -/
theorem append [DecidableEq α] {h₀ l₀ : α} {c : List α} (h : Linked null next head last q)
    (hc : Chain null next h₀ c) (hl : l₀ = c.getLastD null) (hne : c ≠ []) (hnd : c.Nodup)
    (hfresh : ∀ a ∈ c, ∀ k, a ∉ q k) :
    Linked null (if head i = null then next else Function.update next (last i) h₀)
      (Function.update head i (if head i = null then h₀ else head i))
      (Function.update last i l₀) (Function.update q i (q i ++ c)) := by
  have hjoined := ((h.attach hc hl hnd hfresh).concat (i := some i) (j := none) (by simp) hne).detach
  have hupdate : ∀ {β : Type _} (f : κ → β) (x y z : β),
      (fun k => Function.update (Function.update (fun o : Option κ => o.elim x f) (some i) y)
        none z (some k)) = Function.update f i y := by
    intro β f x y z
    funext k
    by_cases hk : k = i
    · subst hk
      simp
    · simp [hk]
  rw [hupdate, hupdate, hupdate] at hjoined
  exact hjoined

/-- **Exchange** of two queues through their caches. -/
theorem swap (h : Linked null next head last q) (hij : i ≠ j) :
    Linked null next (Function.update (Function.update head i (head j)) j (head i))
      (Function.update (Function.update last i (last j)) j (last i))
      (Function.update (Function.update q i (q j)) j (q i)) := by
  refine ⟨fun k => ?_, fun k => ?_, h.sep.transfer hij List.perm_append_comm⟩
  · by_cases hkj : k = j
    · subst hkj
      simpa using h.chain i
    · by_cases hki : k = i
      · subst hki
        simpa [hkj] using h.chain j
      · simpa [hkj, hki] using h.chain k
  · by_cases hkj : k = j
    · subst hkj
      simpa using h.last_eq i
    · by_cases hki : k = i
      · subst hki
        simpa [hkj] using h.last_eq j
      · simpa [hkj, hki] using h.last_eq k

end Linked
