import LibvmaTlt.Lib.Chain
import LibvmaTlt.Lwip.Tlt

/-!
# The slots of the queue of unimportant data

`tlt.c` keeps the blocks of `uimp_queue` in slots of an array, linked from slot 0 on; a slot that is not
in use has length 0. `Listed R q L` says that the slots of `q`, followed from slot 0, are the cells of
`L`, and that each holds what `R` says of it. The lemmas carry each edit of the slots over to the list,
and find the free slot that a scan stops at.
-/

namespace LibvmaTlt.Lwip

open UimpQueue

/-! ## Slots -/

variable (n : Option Nat) {q : UimpQueue}

section Slots

variable (q : UimpQueue) (i j : Nat) (s : TltTransmitSegment)

@[simp] theorem set_slot_self : (q.set i s).slot i = s := Function.update_self ..

@[simp] theorem set_slot_of_ne {i j : Nat} (h : j ≠ i) : (q.set i s).slot j = q.slot j :=
  Function.update_of_ne h ..

@[simp] theorem set_len : (q.set i s).len = q.len := rfl

@[simp] theorem setNext_slot_self :
    (q.setNext i n).slot i = { q.slot i with next := n } := set_slot_self ..

@[simp] theorem setNext_slot_of_ne {i j : Nat} (h : j ≠ i) :
    (q.setNext i n).slot j = q.slot j := set_slot_of_ne q _ h

@[simp] theorem setNext_len : (q.setNext i n).len = q.len := rfl

@[simp] theorem grow_slot : q.grow.slot = q.slot := rfl
@[simp] theorem grow_len : q.grow.len = q.len + 1 := rfl
@[simp] theorem shrink_slot : q.shrink.slot = q.slot := rfl
@[simp] theorem shrink_len : q.shrink.len = q.len - 1 := rfl

end Slots

/-! ## Chains of slots -/

section Chains

variable {β : Type*}

def cells (L : List (Nat × β)) : List Nat := L.map Prod.fst

@[simp] theorem cells_nil : cells ([] : List (Nat × β)) = [] := rfl

@[simp] theorem cells_cons (n : Nat × β) (L : List (Nat × β)) :
    cells (n :: L) = n.1 :: cells L := rfl

@[simp] theorem cells_append (L L' : List (Nat × β)) : cells (L ++ L') = cells L ++ cells L' :=
  List.map_append

theorem mem_cells {L : List (Nat × β)} {n : Nat × β} (h : n ∈ L) : n.1 ∈ cells L :=
  List.mem_map_of_mem h

/-- Where the chain starts: at slot 0, unless the queue is empty. -/
def start : List (Nat × β) → Option Nat
  | [] => none
  | _ :: _ => some 0

@[simp] theorem start_nil : start ([] : List (Nat × β)) = none := rfl

@[simp] theorem start_mid (pre post : List (Nat × β)) (n : Nat × β) :
    start (pre ++ n :: post) = some 0 := by cases pre <;> rfl

@[simp] theorem start_cons (n : Nat × β) (L : List (Nat × β)) : start (n :: L) = some 0 :=
  start_mid [] L n

/-- Followed from slot 0, the slots of `q` hold what `L` lists; the others are free. -/
structure Listed (R : β → TltTransmitSegment → Prop) (q : UimpQueue) (L : List (Nat × β)) : Prop where
  chain : Chain (fun i => (q.slot i).next) (start L) (cells L)
  nodup : (cells L).Nodup
  len : q.len = L.length
  block : ∀ n ∈ L, R n.2 (q.slot n.1)
  free : ∀ i, i ∉ cells L → (q.slot i).len = 0

namespace Listed

variable {R : β → TltTransmitSegment → Prop} {q q' : UimpQueue} {L pre post : List (Nat × β)}
  {c d i : Nat} {x y z : β}

theorem next_eq (h : Listed R q (pre ++ (c, x) :: post)) : (q.slot c).next = (cells post).head? := by
  have hch := h.chain
  rw [cells_append, cells_cons] at hch
  exact hch.split.head_eq

theorem block_mid (h : Listed R q (pre ++ (c, x) :: post)) : R x (q.slot c) :=
  h.block (c, x) (by simp)

theorem next_head (h : Listed R q ((c, x) :: post)) : (q.slot c).next = (cells post).head? :=
  next_eq (show Listed R q ([] ++ (c, x) :: post) from h)

theorem block_head (h : Listed R q ((c, x) :: post)) : R x (q.slot c) :=
  h.block (c, x) (by simp)

theorem ne_mid (h : Listed R q (pre ++ (c, x) :: post)) :
    (∀ i ∈ cells pre, i ≠ c) ∧ ∀ i ∈ cells post, i ≠ c := by
  have hnd := h.nodup
  rw [cells_append, cells_cons, List.nodup_append, List.nodup_cons] at hnd
  obtain ⟨-, ⟨hc, -⟩, hdis⟩ := hnd
  exact ⟨fun i hi => hdis i hi c (by simp), fun i hi hic => hc (hic ▸ hi)⟩

theorem block_rest (h : Listed R q (pre ++ (c, x) :: post))
    (hrest : ∀ i ∈ cells pre ++ cells post, q'.slot i = q.slot i) :
    ∀ n ∈ pre ++ post, R n.2 (q'.slot n.1) := by
  intro n hn
  rw [hrest n.1 (by rw [← cells_append]; exact mem_cells hn)]
  refine h.block n ?_
  rcases List.mem_append.mp hn with hn | hn
  · exact List.mem_append_left _ hn
  · exact List.mem_append_right _ (List.mem_cons_of_mem _ hn)

theorem change (h : Listed R q (pre ++ (c, x) :: post)) (hc : R y (q'.slot c))
    (hnext : (q'.slot c).next = (q.slot c).next) (hlen : q'.len = q.len)
    (hrest : ∀ i, i ≠ c → q'.slot i = q.slot i) : Listed R q' (pre ++ (c, y) :: post) := by
  have hcells : cells (pre ++ (c, y) :: post) = cells (pre ++ (c, x) :: post) := by simp
  obtain ⟨hpre, hpost⟩ := h.ne_mid
  have hblocks : ∀ n ∈ pre ++ post, R n.2 (q'.slot n.1) := h.block_rest fun i hi =>
    hrest i ((List.mem_append.mp hi).elim (hpre i) (hpost i))
  refine ⟨?_, hcells ▸ h.nodup, ?_, ?_, ?_⟩
  · have hch := h.chain
    rw [hcells, start_mid]
    rw [start_mid] at hch
    refine hch.transport fun b _ => ?_
    by_cases hb : b = c
    · rw [hb, hnext]
    · rw [hrest b hb]
  · rw [hlen, h.len]
    simp
  · intro n hn
    rcases List.mem_append.mp hn with hn | hn
    · exact hblocks n (List.mem_append_left _ hn)
    · rcases List.mem_cons.mp hn with rfl | hn
      · exact hc
      · exact hblocks n (List.mem_append_right _ hn)
  · intro i hi
    rw [hcells] at hi
    have hic : i ≠ c := by
      rintro rfl
      simp at hi
    rw [hrest i hic]
    exact h.free i hi

theorem link (h : Listed R q (pre ++ (c, x) :: post)) (hi : i ∉ cells (pre ++ (c, x) :: post))
    (hc : R x (q'.slot c)) (hnext : (q'.slot c).next = some i)
    (hb : R y (q'.slot i)) (hni : (q'.slot i).next = (q.slot c).next)
    (hlen : q'.len = q.len + 1) (hrest : ∀ j, j ≠ c → j ≠ i → q'.slot j = q.slot j) :
    Listed R q' (pre ++ (c, x) :: (i, y) :: post) := by
  obtain ⟨hpre, hpost⟩ := h.ne_mid
  have hipre : ∀ j ∈ cells pre, j ≠ i := fun j hj hji => hi (by simp [← hji, hj])
  have hipost : ∀ j ∈ cells post, j ≠ i := fun j hj hji => hi (by simp [← hji, hj])
  have hblocks : ∀ n ∈ pre ++ post, R n.2 (q'.slot n.1) := h.block_rest fun j hj =>
    (List.mem_append.mp hj).elim (fun hj => hrest j (hpre j hj) (hipre j hj))
      (fun hj => hrest j (hpost j hj) (hipost j hj))
  refine ⟨?_, ?_, ?_, ?_, ?_⟩
  · have hch := h.chain
    rw [start_mid, cells_append, cells_cons] at hch
    rw [start_mid, cells_append, cells_cons, cells_cons]
    have hpostChain : Chain (fun j => (q'.slot j).next) (q'.slot i).next (cells post) := by
      rw [hni]
      exact hch.split.transport fun j hj => by rw [hrest j (hpost j hj) (hipost j hj)]
    exact hch.splice (fun j hj => by rw [hrest j (hpre j hj) (hipre j hj)])
      (Chain.cons_iff.mpr ⟨hnext, hpostChain⟩)
  · have hnd := h.nodup
    simp only [cells_append, cells_cons] at hnd hi ⊢
    have happ : ∀ l, cells pre ++ c :: l = (cells pre ++ [c]) ++ l := by simp
    rw [happ] at hnd hi ⊢
    exact List.nodup_middle.mpr (List.nodup_cons.mpr ⟨hi, hnd⟩)
  · rw [hlen, h.len]
    simp
    omega
  · intro n hn
    rcases List.mem_append.mp hn with hn | hn
    · exact hblocks n (List.mem_append_left _ hn)
    rcases List.mem_cons.mp hn with rfl | hn
    · exact hc
    · rcases List.mem_cons.mp hn with rfl | hn
      · exact hb
      · exact hblocks n (List.mem_append_right _ hn)
  · intro j hj
    simp only [cells_append, cells_cons, List.mem_append, List.mem_cons, not_or] at hj
    rw [hrest j hj.2.1 hj.2.2.1]
    exact h.free j (by simp [hj])

theorem drop (h : Listed R q (pre ++ (c, x) :: (d, y) :: post)) (hc : R z (q'.slot c))
    (hnext : (q'.slot c).next = (q.slot d).next) (hd : (q'.slot d).len = 0)
    (hlen : q'.len = q.len - 1) (hrest : ∀ j, j ≠ c → j ≠ d → q'.slot j = q.slot j) :
    Listed R q' (pre ++ (c, z) :: post) := by
  have happ := List.append_cons pre (c, x) ((d, y) :: post)
  obtain ⟨hpre, hpost⟩ := h.ne_mid
  obtain ⟨hdpre, hdpost⟩ := ne_mid (happ ▸ h)
  have hdc : c ≠ d := hdpre c (by simp)
  have hkeep : ∀ j ∈ cells pre ++ cells post, q'.slot j = q.slot j := by
    intro j hj
    rcases List.mem_append.mp hj with hj | hj
    · exact hrest j (hpre j hj) (hdpre j (by simp [hj]))
    · exact hrest j (hpost j (by simp [hj])) (hdpost j hj)
  have hch := h.chain
  rw [start_mid, cells_append, cells_cons, cells_cons] at hch
  refine ⟨?_, ?_, ?_, ?_, ?_⟩
  · rw [start_mid, cells_append, cells_cons]
    have hdchain : Chain (fun j => (q.slot j).next) (q.slot d).next (cells post) := by
      have := hch.split
      exact (Chain.cons_iff.mp this).2
    refine hch.splice (fun j hj => by rw [hkeep j (by simp [hj])]) ?_
    show Chain (fun j => (q'.slot j).next) (q'.slot c).next (cells post)
    rw [hnext]
    exact hdchain.transport fun j hj => by rw [hkeep j (by simp [hj])]
  · have hnd := h.nodup
    rw [happ, cells_append, cells_cons] at hnd
    have := (List.nodup_cons.mp (List.nodup_middle.mp hnd)).2
    simpa using this
  · have := h.len
    simp only [List.length_append, List.length_cons] at this ⊢
    omega
  · intro n hn
    rcases List.mem_append.mp hn with hn | hn
    · rw [hkeep n.1 (by simp [mem_cells hn])]
      exact h.block n (by simp [hn])
    · rcases List.mem_cons.mp hn with rfl | hn
      · exact hc
      · rw [hkeep n.1 (by simp [mem_cells hn])]
        exact h.block n (by simp [hn])
  · intro j hj
    simp only [cells_append, cells_cons, List.mem_append, List.mem_cons, not_or] at hj
    by_cases hjd : j = d
    · rw [hjd, hd]
    · rw [hrest j hj.2.1 hjd]
      exact h.free j (by simp [hj, hjd])

end Listed

/-! ## Free slots -/

structure FirstFree (L : List (Nat × β)) (i : Nat) : Prop where
  free : i ∉ cells L
  below : ∀ j < i, j ∈ cells L

theorem freeFrom_spec {bound f i : Nat} (hf : bound ≤ i + f) :
    i ≤ q.freeFrom bound f i ∧
      (∀ j, i ≤ j → j < q.freeFrom bound f i → (q.slot j).len ≠ 0) ∧
      (bound ≤ q.freeFrom bound f i ∨ (q.slot (q.freeFrom bound f i)).len = 0) := by
  induction f generalizing i with
  | zero =>
    refine ⟨le_rfl, fun j h1 h2 => ?_, .inl hf⟩
    exact absurd h2 (Nat.not_lt.mpr h1)
  | succ f ih =>
    unfold freeFrom
    split
    · rename_i hi
      obtain ⟨h1, h2, h3⟩ := ih (i := i + 1) (by omega)
      refine ⟨by omega, fun j hij hj => ?_, h3⟩
      rcases Nat.eq_or_lt_of_le hij with rfl | hlt
      · exact hi.2
      · exact h2 j hlt hj
    · rename_i hi
      refine ⟨le_rfl, fun j h1 h2 => absurd h2 (Nat.not_lt.mpr h1), ?_⟩
      by_cases hb : i < bound
      · exact .inr (by simpa [hb] using hi)
      · exact .inl (Nat.not_lt.mp hb)

theorem Listed.scan {R : β → TltTransmitSegment → Prop} {L : List (Nat × β)} {f i : Nat}
    (h : Listed R q L) (hL : ∀ n ∈ L, (q.slot n.1).len ≠ 0) (hf : q.len ≤ i + f)
    (hi : ∀ j < i, j ∈ cells L) :
    FirstFree L (q.freeFrom q.len f i) := by
  obtain ⟨h1, h2, h3⟩ := freeFrom_spec (q := q) hf
  have hbelow : ∀ j < q.freeFrom q.len f i, j ∈ cells L := by
    intro j hj
    rcases Nat.lt_or_ge j i with hji | hij
    · exact hi j hji
    · by_contra hcon
      exact h2 j hij hj (h.free j hcon)
  refine ⟨?_, hbelow⟩
  intro hmem
  obtain ⟨n, hn, hn1⟩ := List.mem_map.mp hmem
  have hne := hL n hn
  rw [hn1] at hne
  rcases h3 with h3 | h3
  · -- then there are more cells than the queue is long
    have hsub : List.range (q.freeFrom q.len f i + 1) ⊆ cells L := by
      intro j hj
      rcases Nat.lt_or_eq_of_le (Nat.lt_succ_iff.mp (List.mem_range.mp hj)) with hj | rfl
      · exact hbelow j hj
      · exact hmem
    have := (List.subperm_of_subset List.nodup_range hsub).length_le
    have hlen := h.len
    simp only [List.length_range, cells, List.length_map] at this
    omega
  · exact hne h3

theorem Listed.nextAvailable {R : β → TltTransmitSegment → Prop} {L : List (Nat × β)} {i : Nat}
    (h : Listed R q L) (hL : ∀ n ∈ L, (q.slot n.1).len ≠ 0) (hi : ∀ j < i, j ∈ cells L) :
    FirstFree L (q.nextAvailable i) :=
  h.scan hL (by omega) hi

/-! ## The last slot -/

theorem lastNode_eq {R : β → TltTransmitSegment → Prop} {pre post : List (Nat × β)} {c d f : Nat}
    {x y : β} (prev : Option Nat) (h : Listed R q (pre ++ (post ++ [(c, x), (d, y)])))
    (hf : post.length + 1 < f) :
    ∃ i, (cells (post ++ [(c, x), (d, y)])).head? = some i ∧ lastNode q f prev i = (some c, d) := by
  induction post generalizing pre prev f with
  | nil =>
    obtain ⟨f, rfl⟩ : ∃ g, f = g + 2 := ⟨f - 2, by simp only [List.length_nil] at hf; omega⟩
    have happ : pre ++ ([] ++ [(c, x), (d, y)]) = (pre ++ [(c, x)]) ++ [(d, y)] := by simp
    have hc : (q.slot c).next = some d := Listed.next_eq h
    have hd : (q.slot d).next = none := Listed.next_eq (happ ▸ h)
    exact ⟨c, rfl, by simp [lastNode, hc, hd]⟩
  | cons n post ih =>
    obtain ⟨f, rfl⟩ : ∃ g, f = g + 1 := ⟨f - 1, by omega⟩
    have happ : pre ++ (n :: post ++ [(c, x), (d, y)]) = (pre ++ [n]) ++ (post ++ [(c, x), (d, y)]) := by
      simp
    obtain ⟨i, hi, hlast⟩ := ih (some n.1) (happ ▸ h) (f := f)
      (by simp only [List.length_cons] at hf; omega)
    have hnext : (q.slot n.1).next = some i := by
      rw [← hi]
      exact Listed.next_eq h
    exact ⟨n.1, rfl, by simp only [lastNode, hnext, hlast]⟩

/-! ## The slots reached from slot 0 -/

theorem Listed.head_eq {R : β → TltTransmitSegment → Prop} {c : Nat} {x : β} {post : List (Nat × β)}
    (h : Listed R q ((c, x) :: post)) : c = 0 := by
  have hch := h.chain
  rw [start_cons, cells_cons, Chain.cons_iff] at hch
  exact (Option.some.inj hch.1).symm

inductive Linked (q : UimpQueue) : Nat → Prop
  | head : (q.slot 0).len ≠ 0 → Linked q 0
  | next {i j : Nat} : Linked q i → (q.slot i).next = some j → Linked q j

theorem Listed.linked_iff {R : β → TltTransmitSegment → Prop} {L : List (Nat × β)} (h : Listed R q L)
    (hL : ∀ n ∈ L, (q.slot n.1).len ≠ 0) (i : Nat) : Linked q i ↔ i ∈ cells L := by
  constructor
  · intro hi
    induction hi with
    | head h0 =>
      by_contra hmem
      exact h0 (h.free 0 hmem)
    | @next i j _ hnext ih =>
      obtain ⟨n, hn, rfl⟩ := List.mem_map.mp ih
      obtain ⟨pre, post, rfl⟩ := List.append_of_mem hn
      rw [h.next_eq] at hnext
      simp [List.mem_of_mem_head? hnext]
  · -- along the chain, from slot 0
    suffices hall : ∀ suf pre, L = pre ++ suf → (∀ n ∈ pre, Linked q n.1) → ∀ n ∈ suf, Linked q n.1 by
      intro hi
      obtain ⟨n, hn, rfl⟩ := List.mem_map.mp hi
      exact hall L [] rfl (by simp) n hn
    intro suf
    induction suf with
    | nil => simp
    | cons n suf ih =>
      rintro pre rfl hpre
      have hn : Linked q n.1 := by
        rcases List.eq_nil_or_concat pre with rfl | ⟨pre', m, rfl⟩
        · have h0 : n.1 = 0 := h.head_eq
          rw [h0]
          exact .head (h0 ▸ hL n (by simp))
        · rw [List.concat_eq_append] at h hpre
          have hnext := @next_eq _ _ q pre' (n :: suf) m.1 m.2 (by simpa using h)
          exact .next (hpre m (by simp)) hnext
      intro m hm
      rcases List.mem_cons.mp hm with rfl | hm
      · exact hn
      refine ih (pre ++ [n]) (by simp) ?_ m hm
      intro k hk
      rcases List.mem_append.mp hk with hk | hk
      · exact hpre k hk
      · exact List.mem_singleton.mp hk ▸ hn

end Chains

end LibvmaTlt.Lwip
