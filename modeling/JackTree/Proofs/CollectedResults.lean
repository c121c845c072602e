import JackTree.Compiler
import Mathlib.Data.List.Pairwise
import Mathlib.Order.Compare

/-!
# Collected results

The order in which results come in does not matter for what is made of them: the
units are put into the order of their sources, and the errors are the same ones.
-/

namespace JackTree

/-! ## The order of paths -/

theorem Component.compare_name (a b : String) :
    compare (Component.name a) (Component.name b) = compare a b := by
  change (compare a b).then .eq = _
  cases compare a b <;> rfl

instance : Std.TransOrd Component where
  eq_swap {a b} := by
    cases a <;> cases b <;> try rfl
    rw [Component.compare_name, Component.compare_name]
    exact Std.OrientedCmp.eq_swap
  isLE_trans {a b c} := by
    cases a <;> cases b <;> cases c
    case name.name.name =>
      rw [Component.compare_name, Component.compare_name, Component.compare_name]
      exact Std.TransCmp.isLE_trans
    all_goals simp [compare, instOrdComponent.ord]

instance : Std.LawfulEqOrd Component where
  eq_of_compare {a b} hequal := by
    cases a <;> cases b
    case name.name =>
      rw [Component.compare_name] at hequal
      rw [Std.LawfulEqOrd.eq_of_compare hequal]
    all_goals first
      | rfl
      | cases hequal

namespace Path

theorem le_total (a b : Path) : a.le b = true ∨ b.le a = true := by
  unfold le
  rw [Std.OrientedOrd.eq_swap (a := b.components)]
  cases compare a.components b.components <;> simp

theorem le_trans {a b c : Path} (hab : a.le b = true) (hbc : b.le c = true) : a.le c = true :=
  Std.TransCmp.isLE_trans hab hbc

theorem same_of_le {a b : Path} (hab : a.le b = true) (hba : b.le a = true) : a.Same b := by
  refine Std.LawfulEqOrd.eq_of_compare ?_
  unfold le at hab hba
  rw [Std.OrientedOrd.eq_swap (a := b.components)] at hba
  cases hcompare : compare a.components b.components with
  | lt => simp [hcompare] at hba
  | eq => rfl
  | gt => simp [hcompare] at hab

end Path

namespace Compiler

/-! ## Units -/

theorem insertUnit_comm_of_le {u v : CompiledUnit} (huv : u.source.le v.source = true)
    (hvu : v.source.le u.source = false) (units : List CompiledUnit) :
    insertUnit u (insertUnit v units) = insertUnit v (insertUnit u units) := by
  induction units with
  | nil => simp [insertUnit, huv, hvu]
  | cons first rest ih =>
      cases hfirst : first.source.le u.source with
      | true =>
          have hlater : first.source.le v.source = true := Path.le_trans hfirst huv
          simp [insertUnit, hfirst, hlater, ih]
      | false =>
          cases hlater : first.source.le v.source with
          | true => simp [insertUnit, hfirst, hlater, huv]
          | false => simp [insertUnit, hfirst, hlater, huv, hvu]

/-- Units of different sources can be put in their places in any order. -/
theorem insertUnit_comm {u v : CompiledUnit} (hne : ¬ u.source.Same v.source)
    (units : List CompiledUnit) :
    insertUnit u (insertUnit v units) = insertUnit v (insertUnit u units) := by
  cases huv : u.source.le v.source with
  | true =>
      cases hvu : v.source.le u.source with
      | true => exact absurd (Path.same_of_le huv hvu) hne
      | false => exact insertUnit_comm_of_le huv hvu units
  | false =>
      have hvu := (Path.le_total u.source v.source).resolve_left (by simp [huv])
      exact (insertUnit_comm_of_le hvu huv units).symm

/-! ## Outcomes -/

/-- The same units, or the same errors in some order. -/
def AgreeOn : Except CompileError (List CompiledUnit) →
    Except CompileError (List CompiledUnit) → Prop
  | .ok units, .ok others => units = others
  | .error (.multiple errors none), .error (.multiple others none) => errors.Perm others
  | _, _ => False

theorem collect_perm (planned : List CompileError)
    {results others : List (Except CompileError CompiledUnit)} (hperm : results.Perm others)
    (hsources : (unitsOf results).Pairwise fun u v => ¬ u.source.Same v.source) :
    AgreeOn (collect planned results) (collect planned others) := by
  have herrors : (planned ++ errorsOf results).Perm (planned ++ errorsOf others) :=
    (hperm.filterMap _).append_left planned
  unfold collect
  cases hall : planned ++ errorsOf results with
  | nil =>
      rw [hall] at herrors
      rw [List.nil_perm.mp herrors]
      have hunits : (unitsOf results).Perm (unitsOf others) := hperm.filterMap _
      refine hunits.foldl_eq' (fun u hu v hv units => ?_) []
      by_cases hequal : u = v
      · rw [hequal]
      · have : Std.Symm fun u v : CompiledUnit => ¬ u.source.Same v.source :=
          ⟨fun _ _ hne hsame => hne hsame.symm⟩
        exact insertUnit_comm (fun hsame => hsources.forall hu hv hequal hsame.symm) units
  | cons error rest =>
      rw [hall] at herrors
      cases hothers : planned ++ errorsOf others with
      | nil =>
          rw [hothers] at herrors
          simp at herrors
      | cons other more =>
          rw [hothers] at herrors
          exact herrors

end Compiler

end JackTree
