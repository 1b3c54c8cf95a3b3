import Mathlib.Data.List.Nodup

/-!
# Lists of elements with a key

A level of a tree is a list of elements, at most one for each key. `replaceFirst` exchanges the element
that a search finds, and `below` lists what the elements contain, each with the key of its element. The
lemmas say how a level changes, up to the order, when something is put below an element, old or new, or
taken from below one.
-/

namespace LibvmaTlt

open List (Perm)

variable {α β κ : Type}

def replaceFirst (p : α → Bool) (r : List α) : List α → List α
  | [] => []
  | a :: l => if p a then r ++ l else a :: replaceFirst p r l

def below (key : α → κ) (sub : α → List β) (l : List α) : List (κ × β) :=
  l.flatMap fun a => (sub a).map (Prod.mk (key a))

/-- At most one element for each key, and all elements are fine. -/
structure Level (key : α → κ) (P : α → Prop) (l : List α) : Prop where
  nodup : (l.map key).Nodup
  all : ∀ a ∈ l, P a

section

variable {p : α → Bool} {l m r : List α} {a a' : α} {key : α → κ} {sub : α → List β} {P : α → Prop}
  {k : κ} {x : β}

theorem replaceFirst_perm (h : l.find? p = some a) :
    ∃ m, l.Perm (a :: m) ∧ ∀ r, (replaceFirst p r l).Perm (r ++ m) := by
  induction l with
  | nil => cases h
  | cons b l ih =>
    by_cases hb : p b = true
    · rw [List.find?_cons_of_pos hb, Option.some_inj] at h
      subst h
      exact ⟨l, .refl _, fun r => by simp [replaceFirst, hb]⟩
    rw [List.find?_cons_of_neg hb] at h
    obtain ⟨m, hl, hr⟩ := ih h
    refine ⟨b :: m, (hl.cons b).trans (.swap ..), fun r => ?_⟩
    rw [replaceFirst, if_neg hb]
    exact ((hr r).cons b).trans List.perm_middle.symm

theorem replaceFirst_find (h : l.find? p = some a) (ha : p a' = true) :
    (replaceFirst p [a'] l).find? p = some a' := by
  induction l with
  | nil => cases h
  | cons b l ih =>
    by_cases hb : p b = true
    · simp [replaceFirst, hb, ha]
    · rw [List.find?_cons_of_neg hb] at h
      simp [replaceFirst, hb, ih h]

theorem replaceFirst_nil_sublist (p : α → Bool) (l : List α) : (replaceFirst p [] l).Sublist l := by
  induction l with
  | nil => exact .slnil
  | cons a l ih =>
    rw [replaceFirst]
    split
    · exact List.sublist_cons_self a l
    · exact ih.cons_cons a

@[simp] theorem below_nil : below key sub [] = [] := rfl

theorem below_cons : below key sub (a :: l) = (sub a).map (Prod.mk (key a)) ++ below key sub l := rfl

theorem below_perm (h : l.Perm m) : (below key sub l).Perm (below key sub m) := h.flatMap_right _

theorem mem_below : (k, x) ∈ below key sub l ↔ ∃ a ∈ l, key a = k ∧ x ∈ sub a := by
  simp only [below, List.mem_flatMap, List.mem_map, Prod.mk.injEq]
  constructor
  · rintro ⟨a, ha, y, hy, rfl, rfl⟩
    exact ⟨a, ha, rfl, hy⟩
  · rintro ⟨a, ha, rfl, hx⟩
    exact ⟨a, ha, x, hx, rfl, rfl⟩

theorem below_ne_nil (hne : l ≠ []) (hsub : ∀ a ∈ l, sub a ≠ []) : below key sub l ≠ [] := by
  obtain ⟨a, l, rfl⟩ := List.exists_cons_of_ne_nil hne
  rw [below_cons, ne_eq, List.append_eq_nil_iff, List.map_eq_nil_iff]
  exact fun h => hsub a List.mem_cons_self h.1

theorem Level.nil : Level key P [] := ⟨List.nodup_nil, fun _ h => absurd h List.not_mem_nil⟩

theorem Level.perm (h : Level key P l) (hp : l.Perm m) : Level key P m :=
  ⟨(hp.map key).nodup_iff.mp h.nodup, fun a ha => h.all a (hp.mem_iff.mpr ha)⟩

theorem Level.tail (h : Level key P (a :: l)) : Level key P l :=
  ⟨h.nodup.of_cons, fun b hb => h.all b (List.mem_cons_of_mem a hb)⟩

theorem Level.change (h : Level key P (a :: l)) (hk : key a' = key a) (ha : P a') :
    Level key P (a' :: l) := by
  refine ⟨?_, ?_⟩
  · rw [List.map_cons, hk]
    exact h.nodup
  · rintro b (_ | ⟨_, hb⟩)
    · exact ha
    · exact h.all b (List.mem_cons_of_mem a hb)

variable [DecidableEq κ]

theorem Level.find (h : Level key P l) (ha : a ∈ l) : l.find? (fun b => key b = key a) = some a := by
  cases hf : l.find? (fun b => key b = key a) with
  | none =>
    rw [List.find?_eq_none] at hf
    exact absurd (decide_eq_true rfl) (hf a ha)
  | some b =>
    have hb : key b = key a := by simpa using List.find?_some hf
    rw [List.inj_on_of_nodup_map h.nodup (List.mem_of_find?_eq_some hf) ha hb]

theorem Level.put (h : Level key P l) (hf : l.find? (fun a => key a = k) = some a) (hk : key a' = key a)
    (ha : P a') (hsub : (sub a').Perm (x :: sub a)) :
    Level key P (replaceFirst (fun a => key a = k) [a'] l) ∧
      (below key sub (replaceFirst (fun a => key a = k) [a'] l)).Perm ((k, x) :: below key sub l) ∧
      replaceFirst (fun a => key a = k) [a'] l ≠ [] := by
  obtain ⟨m, hl, hr⟩ := replaceFirst_perm hf
  have hka : key a = k := by simpa using List.find?_some hf
  refine ⟨((h.perm hl).change hk ha).perm (hr [a']).symm, ?_, ?_⟩
  · calc (below key sub (replaceFirst (fun a => key a = k) [a'] l)).Perm (below key sub (a' :: m)) :=
          below_perm (hr [a'])
      _ = (sub a').map (Prod.mk k) ++ below key sub m := by rw [below_cons, hk, hka]
      _ |>.Perm ((k, x) :: (sub a).map (Prod.mk k) ++ below key sub m) :=
          (hsub.map (Prod.mk k)).append_right _
      _ = (k, x) :: below key sub (a :: m) := by rw [below_cons, hka]; rfl
      _ |>.Perm ((k, x) :: below key sub l) := (below_perm hl.symm).cons _
  · intro hnil
    have := (hr [a']).length_eq
    simp [hnil] at this

theorem Level.append (h : Level key P l) (hf : l.find? (fun a => key a = k) = none) (hk : key a' = k)
    (ha : P a') (hsub : (sub a').Perm [x]) :
    Level key P (l ++ [a']) ∧ (below key sub (l ++ [a'])).Perm ((k, x) :: below key sub l) ∧
      l ++ [a'] ≠ [] := by
  have hl : (l ++ [a']).Perm (a' :: l) := List.perm_append_comm
  have hnew : key a' ∉ l.map key := by
    rw [List.find?_eq_none] at hf
    rw [hk, List.mem_map]
    rintro ⟨b, hb, hbk⟩
    exact hf b hb (decide_eq_true hbk)
  have hcons : Level key P (a' :: l) := by
    refine ⟨List.nodup_cons.mpr ⟨hnew, h.nodup⟩, ?_⟩
    rintro b (_ | ⟨_, hb⟩)
    · exact ha
    · exact h.all b hb
  refine ⟨hcons.perm hl.symm, (below_perm hl).trans ?_, by simp⟩
  rw [below_cons, hk]
  exact (hsub.map (Prod.mk k)).append_right _

theorem Level.take (h : Level key P l) (hf : l.find? (fun a => key a = k) = some a)
    (hk : key a' = key a) (hsub : (sub a).Perm (x :: sub a'))
    (hr : r = [a'] ∧ P a' ∨ r = [] ∧ sub a' = []) :
    Level key P (replaceFirst (fun a => key a = k) r l) ∧
      (below key sub l).Perm ((k, x) :: below key sub (replaceFirst (fun a => key a = k) r l)) := by
  obtain ⟨m, hl, hrep⟩ := replaceFirst_perm hf
  have hka : key a = k := by simpa using List.find?_some hf
  have hbelow : (below key sub l).Perm ((k, x) :: ((sub a').map (Prod.mk k) ++ below key sub m)) := by
    refine (below_perm hl).trans ?_
    rw [below_cons, hka]
    exact (hsub.map (Prod.mk k)).append_right _
  rcases hr with ⟨rfl, ha⟩ | ⟨rfl, hnil⟩
  · refine ⟨((h.perm hl).change hk ha).perm (hrep [a']).symm, hbelow.trans (Perm.cons _ ?_)⟩
    refine Perm.trans ?_ (below_perm (hrep [a']).symm)
    rw [List.singleton_append, below_cons, hk, hka]
  · refine ⟨(h.perm hl).tail.perm (hrep []).symm, hbelow.trans (Perm.cons _ ?_)⟩
    rw [hnil]
    exact below_perm (hrep []).symm

theorem Level.same (h : Level key P l) (hf : l.find? (fun a => key a = k) = some a)
    (hk : key a' = key a) (ha : P a') (hsub : sub a' = sub a) :
    Level key P (replaceFirst (fun a => key a = k) [a'] l) ∧
      (below key sub (replaceFirst (fun a => key a = k) [a'] l)).Perm (below key sub l) := by
  obtain ⟨m, hl, hr⟩ := replaceFirst_perm hf
  refine ⟨((h.perm hl).change hk ha).perm (hr [a']).symm, (below_perm (hr [a'])).trans ?_⟩
  rw [List.singleton_append, below_cons, hk, hsub, ← below_cons]
  exact below_perm hl.symm

end

end LibvmaTlt
