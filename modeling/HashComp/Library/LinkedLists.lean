import Mathlib.Data.List.Basic
import Mathlib.Data.List.Nodup
import Mathlib.Logic.Function.Basic

namespace HashComp.LinkedLists

variable {A : Type*}

/-- The links lead from `start` over the given nodes to `stop`. -/
def Seg (next : A → Option A) : Option A → List A → Option A → Prop
  | start, [], stop => start = stop
  | start, a :: l, stop => start = some a ∧ Seg next (next a) l stop

section Seg

variable {next next' : A → Option A} {start stop mid : Option A} {a b : A} {l l' : List A}

@[simp] theorem seg_nil : Seg next start [] stop ↔ start = stop := Iff.rfl

@[simp] theorem seg_cons :
    Seg next start (a :: l) stop ↔ start = some a ∧ Seg next (next a) l stop := Iff.rfl

theorem seg_append :
    Seg next start (l ++ l') stop ↔ ∃ mid, Seg next start l mid ∧ Seg next mid l' stop := by
  induction l generalizing start with
  | nil => simp
  | cons a l ih =>
      simp only [List.cons_append, seg_cons, ih]
      constructor
      · rintro ⟨h, mid, hl, hl'⟩
        exact ⟨mid, ⟨h, hl⟩, hl'⟩
      · rintro ⟨mid, ⟨h, hl⟩, hl'⟩
        exact ⟨h, mid, hl, hl'⟩

theorem Seg.append (h : Seg next start l mid) (h' : Seg next mid l' stop) :
    Seg next start (l ++ l') stop := seg_append.mpr ⟨mid, h, h'⟩

theorem Seg.congr (h : Seg next start l stop) (hsame : ∀ a ∈ l, next' a = next a) :
    Seg next' start l stop := by
  induction l generalizing start with
  | nil => exact h
  | cons a l ih =>
      refine ⟨h.1, ?_⟩
      rw [hsame a List.mem_cons_self]
      exact ih h.2 fun b hb => hsame b (List.mem_cons_of_mem a hb)

theorem Seg.update [DecidableEq A] (h : Seg next start l stop) (ha : a ∉ l) (link : Option A) :
    Seg (Function.update next a link) start l stop := by
  refine h.congr fun b hb => ?_
  rw [Function.update_of_ne]
  rintro rfl
  exact ha hb

theorem Seg.push [DecidableEq A] (h : Seg next start l stop) (ha : a ∉ l) :
    Seg (Function.update next a start) (some a) (a :: l) stop := by
  refine ⟨rfl, ?_⟩
  rw [Function.update_self]
  exact h.update ha start

theorem Seg.snoc (h : Seg next start (l ++ [b]) none) (hnext : next' b = some a)
    (hend : next' a = none) (hsame : ∀ c ∈ l, next' c = next c) :
    Seg next' start (l ++ [b] ++ [a]) none := by
  obtain ⟨mid, hl, hmid, -⟩ := seg_append.mp h
  have hlast : Seg next' mid [b] (some a) := ⟨hmid, hnext⟩
  have hnew : Seg next' (some a) [a] none := ⟨rfl, hend⟩
  exact ((hl.congr hsame).append hlast).append hnew

end Seg

end HashComp.LinkedLists
