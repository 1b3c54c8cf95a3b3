import Mathlib.Data.List.Perm.Basic
import Mathlib.Tactic.IntervalCases
import LibvmaTlt.Daemon.Flow

/-!
# The flow tree holds the flows

Each element of the tree counts the flows that pass it, and no element is without one. A flow's place is
the interface, the table, the bucket and the node of its filter. As long as no call of `add_flow` fails
after the flow was counted, the places of the tree are those of the flows that were added and not
deleted. The deletion of the last flow of an interface leaves the tree so, too, but reads freed memory.
-/

namespace LibvmaTlt.Daemon

open List (Perm)

/-! ## Handles -/

theorem handle_bits (a b c : BitVec 32) :
    let handle :=
      a <<< 20 &&& 0xFFF00000#32 ||| b <<< 12 &&& 0x000FF000#32 ||| c <<< 0 &&& 0x00000FFF#32
    (handle &&& 0x000FF000#32) >>> 12 = b &&& 0xFF#32 ∧
      (handle &&& 0x00000FFF#32) >>> 0 = c &&& 0xFFF#32 := by
  constructor
  · ext j hj
    interval_cases j <;> simp
  · ext j hj
    interval_cases j <;> simp

theorem handleBkt_handleSet (ht : Int) {bkt : Nat} (id : Int) (h : bkt < 256) :
    handleBkt (handleSet ht bkt id) = bkt := by
  unfold handleBkt handleSet
  rw [(handle_bits ..).1, BitVec.toNat_and, BitVec.toNat_ofNat]
  show bkt % 2 ^ 32 &&& (2 ^ 8 - 1) = bkt
  rw [Nat.and_two_pow_sub_one_eq_mod]
  omega

theorem handleId_handleSet (ht : Int) (bkt : Nat) {id : Nat} (h : id < 4096) :
    handleId (handleSet ht bkt id) = id := by
  unfold handleId handleSet
  rw [(handle_bits ..).2, BitVec.toNat_and, BitVec.ofInt_natCast, BitVec.toNat_ofNat]
  show id % 2 ^ 32 &&& (2 ^ 12 - 1) = id
  rw [Nat.and_two_pow_sub_one_eq_mod]
  omega

theorem getBkt_lt (value : StoreFlow) : getBkt value < 256 := by
  unfold getBkt
  rw [BitVec.toNat_and]
  exact Nat.lt_succ_of_le Nat.and_le_right

/-! ## Nodes -/

def BktElement.ids (b : BktElement) : List Nat := b.list.map NodeElement.value

/-- The numbers ascend and are in range, each node has its flow, and the flows are counted. -/
structure BktElement.Fits (b : BktElement) : Prop where
  sorted : b.ids.Pairwise (· < ·)
  range : ∀ e ∈ b.list, 1 ≤ e.value ∧ e.value ≤ maxId
  one : ∀ e ∈ b.list, e.ref = 1
  ref : b.ref = b.list.length

section Nodes

variable {b : BktElement} {list : List NodeElement} {id : Nat} {out : AddOut} {env : AddEnv}

theorem nodeSlot_spec (hs : (list.map NodeElement.value).Pairwise (· < ·))
    (hid : ∀ e ∈ list, id ≤ e.value) :
    ∃ l₁ l₂, list = l₁ ++ l₂ ∧ (nodeSlot list id).2 = l₁.length ∧ id ≤ (nodeSlot list id).1 ∧
      (∀ e ∈ l₁, e.value < (nodeSlot list id).1) ∧ ∀ e ∈ l₂, (nodeSlot list id).1 < e.value := by
  induction list generalizing id with
  | nil => exact ⟨[], [], rfl, rfl, Nat.le_refl _, by simp, by simp⟩
  | cons e list ih =>
    have hlt : ∀ e' ∈ list, e.value < e'.value := by
      intro e' he'
      exact (List.pairwise_cons.mp hs).1 e'.value (List.mem_map_of_mem he')
    by_cases he : id < e.value
    · rw [nodeSlot, if_pos he]
      refine ⟨[], e :: list, rfl, rfl, Nat.le_refl _, by simp, ?_⟩
      rintro e' (_ | ⟨_, he'⟩)
      · exact he
      · exact Nat.lt_trans he (hlt e' he')
    · -- the number is taken
      have heq : e.value = id := Nat.le_antisymm (Nat.not_lt.mp he) (hid e List.mem_cons_self)
      obtain ⟨l₁, l₂, hl, hp, hle, h₁, h₂⟩ := @ih (id + 1) (List.pairwise_cons.mp hs).2
        fun e' he' => heq ▸ hlt e' he'
      rw [nodeSlot, if_neg he]
      refine ⟨e :: l₁, l₂, by rw [hl, List.cons_append], congrArg (· + 1) hp,
        Nat.le_of_succ_le hle, ?_, h₂⟩
      rintro e' (_ | ⟨_, he'⟩)
      · exact heq ▸ hle
      · exact h₁ e' he'

theorem getNode_eq (hid : ¬(getNode list).1 ≤ 0) :
    getNode list = (((nodeNumber list).1 : Int), (nodeNumber list).2) ∧
      (nodeNumber list).1 ≤ maxId := by
  unfold getNode at hid ⊢
  dsimp only at hid ⊢
  by_cases hno : (nodeNumber list).1 = 0 ∨ maxId < (nodeNumber list).1
  · rw [if_pos hno] at hid
    exact absurd (show -eInval ≤ 0 by decide) hid
  · rw [if_neg hno]
    exact ⟨rfl, by omega⟩

theorem getNode_spec (h : b.Fits) (hid : b.noId = false) :
    ∃ l₁ l₂, ∃ id : Nat, b.list = l₁ ++ l₂ ∧ getNode b.list = ((id : Int), l₁.length) ∧ 1 ≤ id ∧
      id ≤ maxId ∧ (∀ e ∈ l₁, e.value < id) ∧ ∀ e ∈ l₂, id < e.value := by
  have hid : ¬(getNode b.list).1 ≤ 0 := of_decide_eq_false hid
  cases hlast : b.list.getLast? with
  | none =>
    have hn : nodeNumber b.list = (1, 0) := by rw [nodeNumber, hlast]
    obtain ⟨hget, hle⟩ := getNode_eq hid
    rw [hn] at hget hle
    exact ⟨[], [], 1, List.getLast?_eq_none_iff.mp hlast, hget, Nat.le_refl 1, hle, by simp, by simp⟩
  | some last =>
    by_cases hmax : last.value < maxId
    · have hn : nodeNumber b.list = (last.value + 1, b.list.length) := by
        simp only [nodeNumber, hlast, if_pos hmax]
      obtain ⟨hget, hle⟩ := getNode_eq hid
      rw [hn] at hget hle
      obtain ⟨init, hinit⟩ := List.getLast?_eq_some_iff.mp hlast
      refine ⟨b.list, [], last.value + 1, by simp, hget, by omega, hle, ?_, by simp⟩
      -- the numbers ascend, so the last one is the greatest
      intro e he
      have hs := h.sorted
      rw [BktElement.ids, hinit, List.map_append, List.pairwise_append] at hs
      rw [hinit, List.mem_append, List.mem_singleton] at he
      rcases he with he | rfl
      · exact Nat.lt_succ_of_lt (hs.2.2 e.value (List.mem_map_of_mem he) last.value (by simp))
      · exact Nat.lt_succ_self _
    · have hn : nodeNumber b.list = nodeSlot b.list 1 := by
        simp only [nodeNumber, hlast, if_neg hmax]
      obtain ⟨l₁, l₂, hl, hp, hle1, h₁, h₂⟩ := nodeSlot_spec h.sorted fun e he => (h.range e he).1
      obtain ⟨hget, hle⟩ := getNode_eq hid
      rw [hn, hp] at hget
      rw [hn] at hle
      exact ⟨l₁, l₂, _, hl, hget, hle1, hle, h₁, h₂⟩

theorem insertIdx_append {α : Type} (l₁ l₂ : List α) (a : α) :
    (l₁ ++ l₂).insertIdx l₁.length a = l₁ ++ a :: l₂ := by
  induction l₁ with
  | nil => rfl
  | cons b l₁ ih => simpa using ih

theorem BktElement.addNode_spec (h : b.Fits) (hok : env.nodeOk b = true) :
    ∃ id : Nat, id ≤ maxId ∧ (b.addNode env out).1.Fits ∧ (b.addNode env out).1.list ≠ [] ∧
      (b.addNode env out).1.value = b.value ∧ ((b.addNode env out).1.ids).Perm (id :: b.ids) ∧
      (b.addNode env out).2 = { out with id := id, added := true } := by
  simp only [AddEnv.nodeOk, Bool.and_eq_true, Bool.not_eq_true'] at hok
  obtain ⟨⟨hid, hc⟩, hd⟩ := hok
  obtain ⟨l₁, l₂, id, hl, hget, hpos, hle, h₁, h₂⟩ := getNode_spec h hid
  have heq : b.addNode env out = ({ b with ref := b.ref + 1, list := l₁ ++ ⟨id, 0 + 1⟩ :: l₂ },
      { out with id := id, added := true }) := by
    unfold BktElement.addNode
    simp only [hget, hc, hd, Bool.not_true, Bool.false_eq_true, ↓reduceIte]
    rw [if_neg (by omega), hl, insertIdx_append, Int.toNat_natCast]
  rw [heq]
  have hmid : (l₁ ++ (⟨id, 0 + 1⟩ : NodeElement) :: l₂).Perm (⟨id, 0 + 1⟩ :: b.list) := by
    rw [hl]
    exact List.perm_middle
  have hmem : ∀ e ∈ l₁ ++ (⟨id, 0 + 1⟩ : NodeElement) :: l₂, e = ⟨id, 0 + 1⟩ ∨ e ∈ b.list :=
    fun e he => List.mem_cons.mp (hmid.mem_iff.mp he)
  refine ⟨id, hle, ⟨?_, ?_, ?_, ?_⟩, by simp, rfl, hmid.map _, rfl⟩
  · have hs := h.sorted
    rw [BktElement.ids, hl, List.map_append, List.pairwise_append] at hs
    obtain ⟨hs₁, hs₂, hs₁₂⟩ := hs
    show ((l₁ ++ (⟨id, 0 + 1⟩ : NodeElement) :: l₂).map NodeElement.value).Pairwise (· < ·)
    rw [List.map_append, List.map_cons, List.pairwise_append, List.pairwise_cons]
    refine ⟨hs₁, ⟨List.forall_mem_map.mpr h₂, hs₂⟩, List.forall_mem_map.mpr fun e he => ?_⟩
    rintro k (_ | ⟨_, hk⟩)
    · exact h₁ e he
    · exact hs₁₂ e.value (List.mem_map_of_mem he) k hk
  · intro e he
    rcases hmem e he with rfl | he
    · exact ⟨hpos, hle⟩
    · exact h.range e he
  · intro e he
    rcases hmem e he with rfl | he
    · rfl
    · exact h.one e he
  · have := hmid.length_eq
    have := h.ref
    simp only [List.length_cons] at *
    omega

theorem BktElement.delNode_spec (h : b.Fits) (hid : id ∈ b.ids) (denv : DelEnv) :
    (b.delNode id denv).1.Fits ∧ (b.delNode id denv).1.value = b.value ∧
      b.ids.Perm (id :: (b.delNode id denv).1.ids) := by
  have hlevel : Level NodeElement.value (fun _ => True) b.list :=
    ⟨h.sorted.imp fun hlt => Nat.ne_of_lt hlt, fun _ _ => trivial⟩
  obtain ⟨e, he, rfl⟩ := List.mem_map.mp hid
  have hf := hlevel.find he
  have heq : (b.delNode e.value denv).1 =
      { b with ref := b.ref - 1, list := replaceFirst (fun e' => e'.value = e.value) [] b.list } := by
    unfold BktElement.delNode
    simp only [hf, h.one e he, Int.sub_self, Int.le_refl, ↓reduceIte]
  obtain ⟨m, hl, hr⟩ := replaceFirst_perm hf
  have hm : (replaceFirst (fun e' => e'.value = e.value) [] b.list).Perm m := hr []
  have hmem : ∀ e' ∈ replaceFirst (fun e' => e'.value = e.value) [] b.list, e' ∈ b.list :=
    fun e' he' => hl.mem_iff.mpr (List.mem_cons_of_mem e (hm.mem_iff.mp he'))
  rw [heq]
  refine ⟨⟨?_, fun e' he' => h.range e' (hmem e' he'), fun e' he' => h.one e' (hmem e' he'), ?_⟩,
    rfl, ?_⟩
  · exact h.sorted.sublist ((replaceFirst_nil_sublist _ _).map _)
  · have h1 := hl.length_eq
    have h2 := hm.length_eq
    have := h.ref
    simp only [List.length_cons] at *
    omega
  · exact (hl.map _).trans ((hm.symm.map _).cons _)

end Nodes

/-! ## Buckets, tables and interfaces -/

def HtElement.places (t : HtElement) : List (Nat × Nat) := below BktElement.value BktElement.ids t.list

def BktElement.Wf (b : BktElement) : Prop := b.Fits ∧ b.list ≠ []

structure HtElement.Fits (t : HtElement) : Prop where
  level : Level BktElement.value BktElement.Wf t.list
  ref : t.ref = t.places.length

def HtElement.Wf (t : HtElement) : Prop := t.Fits ∧ t.list ≠ []

def IfElement.places (i : IfElement) : List ((FlowType × BitVec 32) × Nat × Nat) :=
  below HtElement.key HtElement.places i.list

/-- At an interface the flows of type egress are counted back without having been counted. -/
structure IfElement.Fits (i : IfElement) : Prop where
  level : Level HtElement.key HtElement.Wf i.list
  ref : i.ref ≤ i.places.length

def IfElement.Wf (i : IfElement) : Prop := i.Fits ∧ i.list ≠ []

section Levels

variable {b : BktElement} {t : HtElement} {i : IfElement} {value : StoreFlow} {env : AddEnv}
  {out : AddOut} {bkt id : Nat}

theorem HtElement.Wf.places_ne_nil (h : t.Wf) : t.places ≠ [] := by
  apply below_ne_nil h.2
  intro b hb hnil
  exact (h.1.level.all b hb).2 (List.map_eq_nil_iff.mp hnil)

theorem IfElement.Wf.places_ne_nil (h : i.Wf) : i.places ≠ [] :=
  below_ne_nil h.2 fun t ht => (h.1.level.all t ht).places_ne_nil

theorem length_add {α : Type} {l l' : List α} {a : α} (h : l'.Perm (a :: l)) :
    (l'.length : Int) = l.length + 1 := by
  rw [h.length_eq, List.length_cons, Int.natCast_succ]

theorem HtElement.addBkt_spec (h : t.Fits) (hok : env.bktOk t value = true) :
    ∃ id : Nat, id ≤ maxId ∧ (t.addBkt value env out).1.Wf ∧ (t.addBkt value env out).1.key = t.key ∧
      ((t.addBkt value env out).1.places).Perm ((getBkt value, id) :: t.places) ∧
      (t.addBkt value env out).2 = { out with bkt := getBkt value, id := id, added := true } := by
  unfold AddEnv.bktOk at hok
  cases hf : t.list.find? fun b => b.value = getBkt value with
  | some b =>
    simp only [hf] at hok
    have hb := h.level.all b (List.mem_of_find?_eq_some hf)
    obtain ⟨id, hle, hfits, hne, hval, hids, hout⟩ :=
      @BktElement.addNode_spec b { out with bkt := getBkt value } env hb.1 hok
    obtain ⟨hlevel, hplaces, hnil⟩ := h.level.put hf hval ⟨hfits, hne⟩ hids
    rw [HtElement.addBkt_found hf]
    exact ⟨id, hle, ⟨⟨hlevel, (congrArg (· + 1) h.ref).trans (length_add hplaces).symm⟩, hnil⟩, rfl,
      hplaces, hout⟩
  | none =>
    simp only [hf, Bool.and_eq_true] at hok
    obtain ⟨⟨hc, hn⟩, hd⟩ := hok
    have hb : BktElement.Fits { value := getBkt value } :=
      ⟨.nil, fun _ h => absurd h List.not_mem_nil, fun _ h => absurd h List.not_mem_nil, rfl⟩
    have hnode : env.nodeOk { value := getBkt value } = true := by
      simp only [AddEnv.nodeOk, hn, hd, Bool.and_true]
      rfl
    obtain ⟨id, hle, hfits, hne, hval, hids, hout⟩ :=
      @BktElement.addNode_spec _ { out with bkt := getBkt value } env hb hnode
    obtain ⟨hlevel, hplaces, hnil⟩ := h.level.append hf hval ⟨hfits, hne⟩ hids
    rw [HtElement.addBkt_new hf]
    simp only [hc, Bool.not_true, Bool.false_eq_true, ↓reduceIte]
    exact ⟨id, hle, ⟨⟨hlevel, (congrArg (· + 1) h.ref).trans (length_add hplaces).symm⟩, hnil⟩, rfl,
      hplaces, hout⟩

theorem IfElement.addHt_spec (h : i.Fits) (hok : env.htOk i value = true) :
    ∃ id : Nat, id ≤ maxId ∧ (i.addHt value env out).1.Wf ∧ (i.addHt value env out).1.ifId = i.ifId ∧
      ((i.addHt value env out).1.places).Perm
        (((value.type, value.dstIp), getBkt value, id) :: i.places) ∧
      ∃ ht, (i.addHt value env out).2 =
        { out with ht := ht, bkt := getBkt value, id := id, added := true } := by
  unfold AddEnv.htOk at hok
  cases hf : i.list.find? fun t => t.key = (value.type, value.dstIp) with
  | some t =>
    simp only [hf] at hok
    obtain ⟨ht, heq⟩ := IfElement.addHt_found env out hf
    have hb := h.level.all t (List.mem_of_find?_eq_some hf)
    obtain ⟨id, hle, hwf, hkey, hsub, hout⟩ :=
      @HtElement.addBkt_spec t value env { out with ht := ht } hb.1 hok
    obtain ⟨hlevel, hplaces, hnil⟩ := h.level.put hf hkey hwf hsub
    rw [heq]
    exact ⟨id, hle, ⟨⟨hlevel, (Int.add_le_add_right h.ref 1).trans (length_add hplaces).ge⟩, hnil⟩, rfl,
      hplaces, ht, hout⟩
  | none =>
    simp only [hf, Bool.and_eq_true] at hok
    obtain ⟨⟨⟨⟨⟨⟨hc, -⟩, hdiv⟩, hlink⟩, hb⟩, hn⟩, hd⟩ := hok
    obtain ⟨ctx, htInternal, ht, heq⟩ := IfElement.addHt_new env out hf
    have hfits : (value.newHt htInternal ht).Fits := ⟨.nil, rfl⟩
    have hbkt : env.bktOk (value.newHt htInternal ht) value = true := by
      show (env.callocBkt && env.callocNode && env.tcAddFilterDev2tap) = true
      rw [hb, hn, hd]
      rfl
    obtain ⟨id, hle, hwf, hkey, hsub, hout⟩ :=
      @HtElement.addBkt_spec _ value env { out with ht := ht } hfits hbkt
    obtain ⟨hlevel, hplaces, hnil⟩ := h.level.append hf hkey hwf hsub
    simp only [hc, hdiv, hlink, Bool.and_self, Bool.not_true, Bool.false_eq_true, ↓reduceIte] at heq
    rw [heq]
    exact ⟨id, hle, ⟨⟨hlevel, (Int.add_le_add_right h.ref 1).trans (length_add hplaces).ge⟩, hnil⟩, rfl,
      hplaces, ht, hout⟩

theorem keep_or_drop {α β γ : Type} {P : α → Prop} {a : α} {list : List β} {sub : List γ} {ref : Int}
    (href : ref ≤ sub.length) (hsub : list = [] → sub = []) (hP : list ≠ [] → P a) :
    (if list.isEmpty ∧ ref ≤ 0 then [] else [a]) = [a] ∧ P a ∨
      (if list.isEmpty ∧ ref ≤ 0 then [] else [a]) = [] ∧ sub = [] := by
  by_cases hnil : list = []
  · rw [hsub hnil] at href
    exact .inr ⟨if_pos ⟨List.isEmpty_iff.mpr hnil, href⟩, hsub hnil⟩
  · exact .inl ⟨if_neg fun h => hnil (List.isEmpty_iff.mp h.1), hP hnil⟩

theorem HtElement.delBkt_found {denv : DelEnv} (hf : (t.list.find? fun b => b.value = bkt) = some b) :
    let b' := (b.delNode id denv).1
    (t.delBkt bkt id denv).1 =
      { t with
        ref := t.ref - 1
        list := replaceFirst (fun b => b.value = bkt)
          (if b'.list.isEmpty ∧ b'.ref ≤ 0 then [] else [b']) t.list } := by
  unfold HtElement.delBkt
  simp only [hf]

theorem HtElement.delBkt_spec (h : t.Fits) (hmem : (bkt, id) ∈ t.places) (denv : DelEnv) :
    (t.delBkt bkt id denv).1.Fits ∧ (t.delBkt bkt id denv).1.key = t.key ∧
      t.places.Perm ((bkt, id) :: (t.delBkt bkt id denv).1.places) := by
  obtain ⟨b, hb, rfl, hid⟩ := mem_below.mp hmem
  have hf := h.level.find hb
  obtain ⟨hfits, hval, hids⟩ := BktElement.delNode_spec (h.level.all b hb).1 hid denv
  have href : (b.delNode id denv).1.ref ≤ (b.delNode id denv).1.ids.length := by
    rw [hfits.ref, BktElement.ids, List.length_map]
  obtain ⟨hlevel, hplaces⟩ := h.level.take hf hval hids
    (keep_or_drop href (fun hnil => by rw [BktElement.ids, hnil]; rfl) fun hne => ⟨hfits, hne⟩)
  rw [HtElement.delBkt_found hf]
  exact ⟨⟨hlevel, Int.sub_eq_iff_eq_add.mpr (h.ref.trans (length_add hplaces))⟩, rfl, hplaces⟩

theorem IfElement.delHt_found (denv : DelEnv)
    (hf : (i.list.find? fun t => t.key = (value.type, value.dstIp)) = some t) :
    let t' := (t.delBkt (handleBkt value.handle) (handleId value.handle) denv).1
    ∃ ctx, (i.delHt value denv).1 =
      { i with
        ref := i.ref - 1
        ctx := ctx
        list := replaceFirst (fun t => t.key = (value.type, value.dstIp))
          (if t'.list.isEmpty ∧ t'.ref ≤ 0 then [] else [t']) i.list } := by
  intro t'
  unfold IfElement.delHt
  simp only [hf]
  split
  · exact ⟨_, rfl⟩
  · exact ⟨_, rfl⟩

theorem IfElement.delHt_spec (h : i.Fits) (denv : DelEnv)
    (hmem : ((value.type, value.dstIp), handleBkt value.handle, handleId value.handle) ∈ i.places) :
    (i.delHt value denv).1.Fits ∧ (i.delHt value denv).1.ifId = i.ifId ∧
      i.places.Perm (((value.type, value.dstIp), handleBkt value.handle, handleId value.handle) ::
        (i.delHt value denv).1.places) := by
  obtain ⟨t, ht, hkey, hsub⟩ := mem_below.mp hmem
  have hf : (i.list.find? fun t => t.key = (value.type, value.dstIp)) = some t := hkey ▸ h.level.find ht
  obtain ⟨hfits, hkey', hperm⟩ := HtElement.delBkt_spec (h.level.all t ht).1 hsub denv
  obtain ⟨hlevel, hplaces⟩ := h.level.take hf hkey' hperm
    (keep_or_drop (Int.le_of_eq hfits.ref) (fun hnil => by rw [HtElement.places, hnil]; rfl)
      fun hne => ⟨hfits, hne⟩)
  obtain ⟨ctx, heq⟩ := IfElement.delHt_found denv hf
  rw [heq]
  exact ⟨⟨hlevel, Int.sub_right_le_of_le_add (h.ref.trans (length_add hplaces).le)⟩, rfl, hplaces⟩

theorem IfElement.delHt_none {denv : DelEnv}
    (hf : (i.list.find? fun t => t.key = (value.type, value.dstIp)) = none) :
    (i.delHt value denv).1 = { i with ref := i.ref - 1 } := by
  unfold IfElement.delHt
  simp only [hf]

theorem IfElement.delHt_ifId (i : IfElement) (value : StoreFlow) (denv : DelEnv) :
    (i.delHt value denv).1.ifId = i.ifId := by
  cases hf : i.list.find? fun t => t.key = (value.type, value.dstIp) with
  | none => rw [IfElement.delHt_none hf]
  | some t =>
    obtain ⟨ctx, heq⟩ := IfElement.delHt_found denv hf
    rw [heq]

end Levels

/-! ## The tree -/

def places (ifList : List IfElement) : List (BitVec 32 × (FlowType × BitVec 32) × Nat × Nat) :=
  below IfElement.ifId IfElement.places ifList

def StoreFlow.place (value : StoreFlow) : BitVec 32 × (FlowType × BitVec 32) × Nat × Nat :=
  (value.ifId, (value.type, value.dstIp), handleBkt value.handle, handleId value.handle)

section Tree

variable {ifList : List IfElement} {i : IfElement} {value : StoreFlow} {env : AddEnv}

theorem IfElement.Fits.ctx (h : i.Fits) (ctx : FlowCtx) : IfElement.Fits { i with ctx := ctx } :=
  ⟨h.level, h.ref⟩

theorem IfElement.addFlow_spec (h : i.Fits) (hok : env.htOk i value = true) :
    (i.addFlow value env).1.Wf ∧ (i.addFlow value env).1.ifId = i.ifId ∧
      ((i.addFlow value env).1.places).Perm ((i.addFlow value env).2.1.place.2 :: i.places) ∧
      (i.addFlow value env).2.1.type = value.type ∧ (i.addFlow value env).2.1.ifId = value.ifId ∧
      (i.addFlow value env).2.2 = 0 := by
  obtain ⟨id, hle, hwf, hid, hplaces, ht, hout⟩ := @IfElement.addHt_spec i value env value.locals h hok
  have heq : ∃ ctx, i.addFlow value env = ({ (i.addHt value env value.locals).1 with ctx := ctx },
      { value with handle := handleSet ht (getBkt value) id }, 0) := by
    unfold IfElement.addFlow
    simp only [hout, ↓reduceIte]
    exact ⟨_, rfl⟩
  obtain ⟨ctx, heq⟩ := heq
  rw [heq]
  refine ⟨⟨hwf.1.ctx ctx, hwf.2⟩, hid, ?_, rfl, rfl, rfl⟩
  show ((i.addHt value env value.locals).1.places).Perm (((value.type, value.dstIp),
    handleBkt (handleSet ht (getBkt value) id), handleId (handleSet ht (getBkt value) id)) :: i.places)
  rw [handleBkt_handleSet ht id (getBkt_lt value),
    handleId_handleSet ht _ (Nat.lt_of_le_of_lt hle (by decide))]
  exact hplaces

theorem addFlow_spec (h : Level IfElement.ifId IfElement.Wf ifList) (hreg : value.type ≠ .egress)
    (hord : addOrderly ifList value env = true) (hrc : ¬(addFlow ifList value env).2.2 < 0) :
    Level IfElement.ifId IfElement.Wf (addFlow ifList value env).1 ∧
      (places (addFlow ifList value env).1).Perm
        ((addFlow ifList value env).2.1.place :: places ifList) ∧
      (addFlow ifList value env).2.1.type = value.type := by
  simp only [addOrderly, hreg, decide_false, Bool.false_or] at hord
  cases hf : ifList.find? fun i => i.ifId = value.ifId with
  | some i =>
    simp only [hf] at hord
    obtain ⟨hwf, hid, hplaces, htype, hif, -⟩ :=
      IfElement.addFlow_spec (h.all i (List.mem_of_find?_eq_some hf)).1 hord
    obtain ⟨hlevel, hperm, -⟩ := h.put hf hid hwf hplaces
    rw [addFlow_found hreg hf]
    refine ⟨hlevel, ?_, htype⟩
    rw [← hif] at hperm
    exact hperm
  | none =>
    simp only [hf, Bool.or_eq_true, Bool.not_eq_true'] at hord
    cases hok : env.ifOk with
    | false => exact absurd (addFlow_noIf hreg hf hok).2 hrc
    | true =>
      have hnew : IfElement.Fits { ifId := value.ifId, ctx := .new } := ⟨.nil, Int.le_refl 0⟩
      obtain ⟨hwf, hid, hplaces, htype, hif, -⟩ :=
        IfElement.addFlow_spec hnew (hord.resolve_left (by simp [hok]))
      obtain ⟨hlevel, hperm, -⟩ := h.append hf hid hwf hplaces
      rw [addFlow_new hreg hf hok]
      refine ⟨hlevel, ?_, htype⟩
      rw [← hif] at hperm
      exact hperm

theorem delFlow_found (denv : DelEnv) (hf : (ifList.find? fun i => i.ifId = value.ifId) = some i) :
    ∃ i' : IfElement, (∃ ctx, i' = { (i.delHt value denv).1 with ctx := ctx }) ∧
      (delFlow ifList value denv).1 = replaceFirst (fun i => i.ifId = value.ifId)
        (if i'.list.isEmpty ∧ i'.ref ≤ 0 then [] else [i']) ifList ∧
      (delFlow ifList value denv).2.2 = decide (i'.list.isEmpty ∧ i'.ref ≤ 0) := by
  unfold delFlow
  simp only [hf]
  refine ⟨{ (i.delHt value denv).1 with
    ctx := (i.delHt value denv).1.ctx.freePendingList denv.tcDelFilter }, ⟨_, rfl⟩, ?_⟩
  by_cases hgo : (i.delHt value denv).1.list.isEmpty ∧ (i.delHt value denv).1.ref ≤ 0
  · simp only [if_pos hgo]
    exact ⟨trivial, (decide_eq_true hgo).symm⟩
  · simp only [if_neg hgo]
    exact ⟨trivial, (decide_eq_false hgo).symm⟩

/-- The context is read after it was freed exactly if the interface goes. -/
theorem delFlow_fault (h : Level IfElement.ifId IfElement.Wf ifList) (denv : DelEnv)
    (hf : (ifList.find? fun i => i.ifId = value.ifId) = some i) :
    (delFlow ifList value denv).2.2 = true ↔
      ∀ j ∈ (delFlow ifList value denv).1, j.ifId ≠ value.ifId := by
  have hif : i.ifId = value.ifId := by simpa using List.find?_some hf
  have hid : (i.delHt value denv).1.ifId = i.ifId := IfElement.delHt_ifId ..
  obtain ⟨i', ⟨ctx, rfl⟩, heq, hfault⟩ := delFlow_found denv hf
  obtain ⟨m, hl, hr⟩ := replaceFirst_perm hf
  rw [heq, hfault, decide_eq_true_eq]
  split
  · rename_i hgo
    refine iff_of_true hgo fun j hj hj' => ?_
    have hnodup := (hl.map IfElement.ifId).nodup_iff.mp h.nodup
    rw [List.map_cons, List.nodup_cons] at hnodup
    exact hnodup.1 (List.mem_map.mpr ⟨j, by simpa using (hr []).mem_iff.mp hj, hj'.trans hif.symm⟩)
  · rename_i hstay
    exact iff_of_false hstay fun hall =>
      hall _ ((hr _).mem_iff.mpr List.mem_cons_self) (hid.trans hif)

theorem delFlow_spec (h : Level IfElement.ifId IfElement.Wf ifList) (hmem : value.place ∈ places ifList)
    (denv : DelEnv) :
    Level IfElement.ifId IfElement.Wf (delFlow ifList value denv).1 ∧
      (places ifList).Perm (value.place :: places (delFlow ifList value denv).1) := by
  obtain ⟨i, hi, hif, hsub⟩ := mem_below.mp hmem
  have hf : (ifList.find? fun i => i.ifId = value.ifId) = some i := hif ▸ h.find hi
  obtain ⟨hfits, hid, hperm⟩ := IfElement.delHt_spec (h.all i hi).1 denv hsub
  obtain ⟨i', ⟨ctx, hi'⟩, heq, -⟩ := delFlow_found denv hf
  have hfits' : i'.Fits := by
    rw [hi']
    exact hfits.ctx ctx
  have hid' : i'.ifId = i.ifId := by rw [hi', hid]
  have hperm' : i.places.Perm (value.place.2 :: i'.places) := by
    rw [hi']
    exact hperm
  rw [heq]
  exact h.take hf hid' hperm'
    (keep_or_drop hfits'.ref (fun hnil => by rw [IfElement.places, hnil]; rfl) fun hne => ⟨hfits', hne⟩)

theorem delFlow_egress (h : Level IfElement.ifId IfElement.Wf ifList)
    (hno : ∀ p ∈ places ifList, p.2.1.1 ≠ value.type) (denv : DelEnv) :
    Level IfElement.ifId IfElement.Wf (delFlow ifList value denv).1 ∧
      (places (delFlow ifList value denv).1).Perm (places ifList) ∧
      (delFlow ifList value denv).2.2 = false := by
  cases hf : ifList.find? fun i => i.ifId = value.ifId with
  | none =>
    unfold delFlow
    simp only [hf]
    exact ⟨h, .refl _, trivial⟩
  | some i =>
    have hmem := List.mem_of_find?_eq_some hf
    have hwf := h.all i hmem
    have hnone : (i.list.find? fun t => t.key = (value.type, value.dstIp)) = none := by
      rw [List.find?_eq_none]
      intro t ht hkey
      -- a table is not without a place
      obtain ⟨x, hx⟩ := List.exists_mem_of_ne_nil _ (hwf.1.level.all t ht).places_ne_nil
      have hplace : (i.ifId, t.key, x) ∈ places ifList :=
        mem_below.mpr ⟨i, hmem, rfl, mem_below.mpr ⟨t, ht, rfl, hx⟩⟩
      have hkey : t.key = (value.type, value.dstIp) := of_decide_eq_true hkey
      exact hno _ hplace (congrArg Prod.fst hkey)
    obtain ⟨i', ⟨ctx, hi'⟩, heq, hfault⟩ := delFlow_found denv hf
    rw [IfElement.delHt_none hnone] at hi'
    subst hi'
    have hne : ¬(i.list.isEmpty ∧ i.ref - 1 ≤ 0) := fun hnil => hwf.2 (List.isEmpty_iff.mp hnil.1)
    rw [heq, hfault, if_neg hne]
    refine and_assoc.mp ⟨h.same hf rfl ⟨⟨hwf.1.level, ?_⟩, hwf.2⟩ rfl, decide_eq_false hne⟩
    exact Int.le_trans (Int.sub_le_self _ (by decide)) hwf.1.ref

end Tree

/-! ## Runs -/

/-- The tree, the flows that were added and not deleted, and whether a freed context was read. -/
structure FlowRun where
  ifList : List IfElement := []
  flows : List StoreFlow := []
  fault : Bool := false

/-- Calls of `add_flow`, and of `del_flow` with a flow that was added. -/
inductive FlowAct where
  | add (value : StoreFlow) (env : AddEnv)
  | del (k : Nat) (env : DelEnv)

def FlowRun.act (s : FlowRun) : FlowAct → FlowRun
  | .add value env =>
    let (ifList, value, rc) := addFlow s.ifList value env
    { s with ifList := ifList, flows := if rc < 0 then s.flows else s.flows ++ [value] }
  | .del k env =>
    match s.flows[k]? with
    | none => s
    | some value =>
      let (ifList, _, fault) := delFlow s.ifList value env
      { ifList := ifList, flows := s.flows.eraseIdx k, fault := fault }

def FlowRun.step (s : FlowRun) (a : FlowAct) : FlowRun := if s.fault then s else s.act a

/-- Nothing fails once a flow is counted, and the flow deleted is not the last one of its interface. -/
def FlowRun.orderly (s : FlowRun) : FlowAct → Bool
  | .add value env => addOrderly s.ifList value env
  | .del k _ =>
    match s.flows[k]? with
    | none => true
    | some value => value.type = .egress ||
        (s.flows.eraseIdx k).any fun f => f.type ≠ .egress && f.ifId = value.ifId

/-- An interface none of whose flows is left has no element. -/
def FlowRun.Balanced (s : FlowRun) : Prop :=
  ∀ ifId, (∀ f ∈ s.flows, f.type ≠ .egress → f.ifId ≠ ifId) → ∀ i ∈ s.ifList, i.ifId ≠ ifId

def FlowRun.placed (s : FlowRun) : List (BitVec 32 × (FlowType × BitVec 32) × Nat × Nat) :=
  (s.flows.filter fun f => f.type ≠ .egress).map StoreFlow.place

/-- The places of the tree are those of the flows. -/
structure FlowRun.Inv (s : FlowRun) : Prop where
  level : Level IfElement.ifId IfElement.Wf s.ifList
  perm : s.placed.Perm (places s.ifList)

section Runs

variable {s : FlowRun}

theorem FlowRun.Inv.add (h : s.Inv) {value : StoreFlow} {env : AddEnv}
    (hord : addOrderly s.ifList value env = true) : (s.act (.add value env)).Inv := by
  have hright := addFlow_right_iff.mpr hord
  by_cases hrc : (addFlow s.ifList value env).2.2 < 0
  · have hs : s.act (.add value env) = s := by
      simp only [FlowRun.act, if_pos hrc, (hright (.inl hrc)).2]
    rw [hs]
    exact h
  · have hs : s.act (.add value env) = ⟨(addFlow s.ifList value env).1,
        s.flows ++ [(addFlow s.ifList value env).2.1], s.fault⟩ := by
      simp only [FlowRun.act, if_neg hrc]
    rw [hs]
    by_cases hreg : value.type = .egress
    · have heq : addFlow s.ifList value env = (s.ifList, value, addFlowEgress env) := by
        unfold addFlow
        rw [if_pos hreg]
      rw [heq]
      refine ⟨h.level, ?_⟩
      simpa [FlowRun.placed, List.filter_append, hreg] using h.perm
    · obtain ⟨hlevel, hperm, htype⟩ := addFlow_spec h.level hreg hord hrc
      refine ⟨hlevel, ?_⟩
      have hnew : ∀ v : StoreFlow, v.type = value.type →
          FlowRun.placed ⟨(addFlow s.ifList value env).1, s.flows ++ [v], s.fault⟩ =
            s.placed ++ [v.place] := by
        intro v hv
        simp [FlowRun.placed, List.filter_append, hv, hreg]
      rw [hnew _ htype]
      exact List.perm_append_comm.trans ((h.perm.cons _).trans hperm.symm)

/-- An interface has an element exactly if a flow of it is left. -/
theorem FlowRun.Inv.mem_iff (h : s.Inv) {ifId : BitVec 32} : (∀ i ∈ s.ifList, i.ifId ≠ ifId) ↔
    ∀ f ∈ s.flows, f.type ≠ .egress → f.ifId ≠ ifId := by
  constructor
  · intro hno f hf hreg hif
    have hplaced : f.place ∈ s.placed :=
      List.mem_map_of_mem (List.mem_filter.mpr ⟨hf, decide_eq_true hreg⟩)
    obtain ⟨i, hi, hif', -⟩ := mem_below.mp (h.perm.mem_iff.mp hplaced)
    exact hno i hi (hif'.trans hif)
  · intro hno i hi hif
    obtain ⟨x, hx⟩ := List.exists_mem_of_ne_nil _ (h.level.all i hi).places_ne_nil
    have hmem : (i.ifId, x) ∈ places s.ifList := mem_below.mpr ⟨i, hi, rfl, hx⟩
    obtain ⟨f, hf, heq⟩ := List.mem_map.mp (h.perm.mem_iff.mpr hmem)
    obtain ⟨hflow, hreg⟩ := List.mem_filter.mp hf
    exact hno f hflow (of_decide_eq_true hreg) ((congrArg Prod.fst heq).trans hif)

theorem FlowRun.Inv.balanced (h : s.Inv) : s.Balanced := fun _ => h.mem_iff.mpr

/-- A deletion keeps the tree and the flows in step; it reads a freed context exactly if the flow was the
last one of its interface. -/
theorem FlowRun.Inv.del (h : s.Inv) (hs : s.fault = false) (k : Nat) (denv : DelEnv) :
    (s.act (.del k denv)).Inv ∧
      ((s.act (.del k denv)).fault = true ↔ s.orderly (.del k denv) = false) := by
  cases hk : s.flows[k]? with
  | none => simp [FlowRun.act, FlowRun.orderly, hk, h, hs]
  | some value =>
    obtain ⟨hlt, hget⟩ := List.getElem?_eq_some_iff.mp hk
    have hflows : (value :: s.flows.eraseIdx k).Perm s.flows :=
      hget ▸ List.getElem_cons_eraseIdx_perm hlt
    have hact : s.act (.del k denv) = ⟨(delFlow s.ifList value denv).1, s.flows.eraseIdx k,
        (delFlow s.ifList value denv).2.2⟩ := by
      simp only [FlowRun.act, hk]
    rw [hact]
    have hplaced := (hflows.filter fun f => decide (f.type ≠ .egress)).map StoreFlow.place
    by_cases hreg : value.type = .egress
    · have hno : ∀ p ∈ places s.ifList, p.2.1.1 ≠ value.type := by
        intro p hp
        obtain ⟨f, hf, rfl⟩ := List.mem_map.mp (h.perm.mem_iff.mpr hp)
        rw [hreg]
        exact of_decide_eq_true (List.mem_filter.mp hf).2
      obtain ⟨hlevel, hperm, hfault⟩ := delFlow_egress h.level hno denv
      rw [List.filter_cons_of_neg (by simpa using hreg)] at hplaced
      exact ⟨⟨hlevel, (hplaced.trans h.perm).trans hperm.symm⟩, by simp [FlowRun.orderly, hk, hreg, hfault]⟩
    · rw [List.filter_cons_of_pos (by simpa using hreg), List.map_cons] at hplaced
      have hmem : value.place ∈ places s.ifList :=
        (hplaced.trans h.perm).mem_iff.mp List.mem_cons_self
      obtain ⟨hlevel, hperm⟩ := delFlow_spec h.level hmem denv
      have hinv : FlowRun.Inv ⟨(delFlow s.ifList value denv).1, s.flows.eraseIdx k,
          (delFlow s.ifList value denv).2.2⟩ :=
        ⟨hlevel, ((hplaced.trans h.perm).trans hperm).cons_inv⟩
      obtain ⟨i, hi, hif, -⟩ := mem_below.mp hmem
      have hf : (s.ifList.find? fun i => i.ifId = value.ifId) = some i := hif ▸ h.level.find hi
      have hgone := delFlow_fault h.level denv hf
      rw [hinv.mem_iff] at hgone
      refine ⟨hinv, hgone.trans ?_⟩
      simp [FlowRun.orderly, hk, hreg]

theorem FlowRun.Inv.step (h : s.Inv ∧ s.fault = false) {a : FlowAct} (hord : s.orderly a = true) :
    (s.step a).Inv ∧ (s.step a).fault = false := by
  obtain ⟨h, hs⟩ := h
  rw [FlowRun.step, if_neg (by simp [hs])]
  cases a with
  | add value env => exact ⟨h.add hord, hs⟩
  | del k denv =>
    obtain ⟨hinv, hfault⟩ := h.del hs k denv
    rw [hord] at hfault
    exact ⟨hinv, by simpa using hfault⟩

/-- A call of `add_flow` does what it should with a failure exactly if nothing fails once the flow is
counted. In every run whose `add_flow` calls are all like that, and whose `del_flow` calls leave each
interface a flow, no freed context is read and an interface none of whose flows is left has no element;
the deletion of a last flow takes the element away as well, and reads its freed context. -/
theorem flow_tree_balanced (ifList : List IfElement) (value : StoreFlow) (env : AddEnv) (s : FlowRun) :
    (AddRight ifList value env ↔ addOrderly ifList value env = true) ∧
      (Reach FlowRun.step (fun s a => s.orderly a = true) {} s →
        s.fault = false ∧ s.Balanced ∧ ∀ k denv, (s.step (.del k denv)).Balanced ∧
          ((s.step (.del k denv)).fault = true ↔ s.orderly (.del k denv) = false)) := by
  refine ⟨addFlow_right_iff, fun hr => ?_⟩
  obtain ⟨h, hs⟩ := hr.inv (I := fun s => s.Inv ∧ s.fault = false) ⟨⟨.nil, .refl _⟩, rfl⟩
    fun _ _ h hord => FlowRun.Inv.step h hord
  refine ⟨hs, h.balanced, fun k denv => ?_⟩
  obtain ⟨hinv, hfault⟩ := h.del hs k denv
  rw [FlowRun.step, if_neg (by simp [hs])]
  exact ⟨hinv.balanced, hfault⟩

end Runs

def tcpFlow : StoreFlow where
  type := .tcp3t
  ifId := 2
  tapId := 9
  dstIp := 0x0100000A
  dstPort := 0x5000

/-- Two flows of an interface are added, and one of them is deleted. -/
def oneLeft : FlowRun :=
  ((FlowRun.step {} (.add tcpFlow {})).step (.add { tcpFlow with type := .udp3t } {})).step (.del 0 {})

/-- The deletion of the other one takes the interface away, and reads its freed context. -/
theorem flow_tree_balanced_oneLeft :
    oneLeft.ifList.map (·.ifId) = [2] ∧ oneLeft.fault = false ∧
      (oneLeft.step (.del 0 {})).Balanced ∧ (oneLeft.step (.del 0 {})).fault = true := by
  have hr : Reach FlowRun.step (fun s a => s.orderly a = true) {} oneLeft :=
    .next (.next (.next .start (FlowAct.add tcpFlow {}) (by decide +kernel))
      (FlowAct.add { tcpFlow with type := .udp3t } {}) (by decide +kernel)) (FlowAct.del 0 {})
      (by decide +kernel)
  obtain ⟨hs, -, hdel⟩ := (flow_tree_balanced [] tcpFlow {} oneLeft).2 hr
  exact ⟨by decide +kernel, hs, (hdel 0 {}).1, (hdel 0 {}).2.mpr (by decide +kernel)⟩

def noTables : List IfElement := [{ ifId := 2, ctx := { ht := BitVec.allOnes 2048 } }]

/-- A call that gets no memory for the table fails and leaves an interface that no flow has; a call that
gets no number for the table succeeds; and the deletion of the only flow reads a freed context. -/
theorem addFlow_not_atomic :
    ((addFlow [] tcpFlow { callocHt := false }).2.2 = -eNomem ∧
        (FlowRun.step {} (.add tcpFlow { callocHt := false })).flows = [] ∧
        (addFlow [] tcpFlow { callocHt := false }).1.map (fun i => (i.ifId, i.ref)) = [(2, 1)] ∧
        ¬AddRight [] tcpFlow { callocHt := false }) ∧
      noId noTables tcpFlow = true ∧ (addFlow noTables tcpFlow {}).2.2 = 0 ∧
      ¬AddRight noTables tcpFlow {} ∧
      ((FlowRun.step {} (.add tcpFlow {})).step (.del 0 {})).fault = true := by
  have h1 : addOrderly [] tcpFlow { callocHt := false } = false := by decide +kernel
  have h2 : addOrderly noTables tcpFlow {} = false := by decide +kernel
  refine ⟨⟨by decide +kernel, by decide +kernel, by decide +kernel, ?_⟩, by decide +kernel,
    by decide +kernel, ?_, by decide +kernel⟩
  · rw [addFlow_right_iff, h1]
    exact Bool.false_ne_true
  · rw [addFlow_right_iff, h2]
    exact Bool.false_ne_true

end LibvmaTlt.Daemon
