/-
  File:      RagRat/Lib/Keyed.lean
  Subject:   INSERTS UNDER KEYS: a list of items, each of which may put a value under its own key.

  * `insertAll key val l f` -- the map `f` after the items of `l` were inserted in their order.
  * `insertAll_of_mem` / `insertAll_of_not_mem` -- what stands under a key afterwards, if the items' keys
    are distinct; `insertAll_cases` -- where a value under a key comes from, whether or not they are.
-/
import Mathlib.Data.List.Nodup
import Mathlib.Data.List.Perm.Basic
import Mathlib.Logic.Function.Basic

namespace RagRat.Lib.Keyed

open List

variable {α β κ : Type} [DecidableEq κ] {key : α → κ} {val : α → Option β} {a : α} {k : κ}
  {l : List α} {f : κ → Option β} {p : α → Bool}

/-- One insert; an item without a value leaves the map alone. -/
def put (key : α → κ) (val : α → Option β) (f : κ → Option β) (a : α) : κ → Option β :=
  match val a with
  | some v => Function.update f (key a) (some v)
  | none => f

/-- The values of a list, put one after the other. -/
def insertAll (key : α → κ) (val : α → Option β) (l : List α) (f : κ → Option β) : κ → Option β :=
  l.foldl (put key val) f

theorem put_of_ne (f : κ → Option β) (h : key a ≠ k) : put key val f a k = f k := by
  unfold put
  cases val a with
  | none => rfl
  | some v => exact Function.update_of_ne (Ne.symm h) _ _

theorem put_self (f : κ → Option β) (a : α) : put key val f a (key a) = (val a).or (f (key a)) := by
  unfold put
  cases val a with
  | none => rfl
  | some v => simp

theorem insertAll_cons (a : α) (l : List α) (f : κ → Option β) :
    insertAll key val (a :: l) f = insertAll key val l (put key val f a) := rfl

theorem insertAll_of_not_mem (h : ∀ a ∈ l, key a ≠ k) (f : κ → Option β) :
    insertAll key val l f k = f k := by
  induction l generalizing f with
  | nil => rfl
  | cons a l ih =>
    rw [insertAll_cons, ih (forall_mem_cons.mp h).2, put_of_ne f (h a mem_cons_self)]

theorem insertAll_of_mem (hnd : (l.map key).Nodup) (ha : a ∈ l) (f : κ → Option β) :
    insertAll key val l f (key a) = (val a).or (f (key a)) := by
  induction l generalizing f with
  | nil => cases ha
  | cons b l ih =>
    obtain ⟨hb, htail⟩ := nodup_cons.mp hnd
    rw [insertAll_cons]
    rcases mem_cons.mp ha with rfl | hmem
    · have hne : ∀ x ∈ l, key x ≠ key a := fun x hx hkey => hb (hkey ▸ mem_map_of_mem hx)
      rw [insertAll_of_not_mem hne, put_self]
    · have hne : key b ≠ key a := fun hkey => hb (hkey ▸ mem_map_of_mem hmem)
      rw [ih htail hmem, put_of_ne f hne]

theorem insertAll_induction (P : Option β → Prop)
    (hval : ∀ a ∈ l, key a = k → ∀ v, val a = some v → P (some v)) (hf : P (f k)) :
    P (insertAll key val l f k) := by
  induction l generalizing f with
  | nil => exact hf
  | cons a l ih =>
    refine ih (forall_mem_cons.mp hval).2 ?_
    by_cases hk : key a = k
    · subst hk
      rw [put_self]
      cases hv : val a with
      | none => exact hf
      | some v => exact hval a mem_cons_self rfl v hv
    · rwa [put_of_ne f hk]

theorem insertAll_ne_none (h : f k ≠ none ∨ ∃ a ∈ l, key a = k ∧ val a ≠ none) : insertAll key val l f k ≠ none := by
  induction l generalizing f with
  | nil => exact h.resolve_right fun ⟨_, ha, _⟩ => absurd ha not_mem_nil
  | cons a l ih =>
    refine ih ?_
    by_cases hk : key a = k
    · subst hk
      rw [put_self]
      cases hv : val a with
      | some v => exact .inl nofun
      | none =>
        refine h.imp_right fun ⟨b, hb, hbk, hbv⟩ => ⟨b, (mem_cons.mp hb).resolve_left ?_, hbk, hbv⟩
        rintro rfl
        exact hbv hv
    · rw [put_of_ne f hk]
      refine h.imp_right fun ⟨b, hb, hbk, hbv⟩ => ⟨b, (mem_cons.mp hb).resolve_left ?_, hbk, hbv⟩
      rintro rfl
      exact hk hbk

theorem insertAll_cases {v : β} (h : insertAll key val l f k = some v) :
    f k = some v ∨ ∃ a ∈ l, key a = k ∧ val a = some v := by
  refine insertAll_induction (fun x => x = some v → f k = some v ∨ ∃ a ∈ l, key a = k ∧ val a = some v)
    (fun a ha hk w hval hw => Or.inr ⟨a, ha, hk, hval.trans hw⟩) Or.inl h

/-! ## Looking an item up by its key -/

theorem find?_eq_some_of_unique (ha : a ∈ l) (hp : p a = true)
    (h : ∀ b ∈ l, p b = true → b = a) : l.find? p = some a := by
  cases hfind : l.find? p with
  | none => exact absurd hp (find?_eq_none.mp hfind a ha)
  | some b => rw [h b (mem_of_find?_eq_some hfind) (find?_some hfind)]

theorem find?_key_eq_some_iff (hnd : (l.map key).Nodup) :
    l.find? (fun x => p x ∧ key x = k) = some a ↔ a ∈ l ∧ p a = true ∧ key a = k := by
  constructor
  · intro h
    have hp := find?_some h
    simp only [decide_eq_true_eq] at hp
    exact ⟨mem_of_find?_eq_some h, hp.1, hp.2⟩
  · rintro ⟨ha, hp, rfl⟩
    refine find?_eq_some_of_unique ha (decide_eq_true ⟨hp, rfl⟩) fun b hb hpass => ?_
    exact inj_on_of_nodup_map hnd hb ha (of_decide_eq_true hpass).2

end RagRat.Lib.Keyed
