import JackTree.Proofs.TokenConservation

/-!
# Nesting of markers

Markers are nested when they consist of leaves and of opening markers that each have
their closing marker behind further nested markers.  `nesting_check_is_exact` says that
the check accepts the nested markers and no others, and that those of a tree are nested.
-/

namespace JackTree

/-! ## Nested markers -/

inductive Nested : List Marker → Prop where
  | nil : Nested []
  | leaf {tag value : String} {rest : List Marker} :
      Nested rest → Nested (.leaf tag value :: rest)
  | enclosed {tag : String} {inner rest : List Marker} :
      Nested inner → Nested rest →
        Nested (.opening tag :: (inner ++ .closing tag :: rest))

/-- Markers that close everything that is open, the innermost tag first, and are nested
in between. -/
inductive Completes : List String → List Marker → Prop where
  | nested {markers : List Marker} : Nested markers → Completes [] markers
  | closing {tag : String} {outer : List String} {inner rest : List Marker} :
      Nested inner → Completes outer rest →
        Completes (tag :: outer) (inner ++ .closing tag :: rest)

/-- What may stand in front of nested markers may stand in front of the markers that
close what is open, since these start with nested ones. -/
theorem Completes.append {opened : List String} {rest : List Marker} (front : List Marker)
    (hfront : ∀ inner, Nested inner → Nested (front ++ inner)) (hrest : Completes opened rest) :
    Completes opened (front ++ rest) := by
  cases hrest with
  | nested hnested => exact .nested (hfront _ hnested)
  | closing hinner houter =>
      rw [← List.append_assoc]
      exact .closing (hfront _ hinner) houter

theorem Completes.leaf {opened : List String} {rest : List Marker} (tag value : String)
    (hrest : Completes opened rest) : Completes opened (.leaf tag value :: rest) :=
  hrest.append [.leaf tag value] fun _ hinner => .leaf hinner

theorem Completes.enclosed {opened : List String} {tag : String} {rest : List Marker}
    (hrest : Completes (tag :: opened) rest) : Completes opened (.opening tag :: rest) := by
  cases hrest with
  | @closing _ _ inner rest hinner houter =>
      have hfront : ∀ more, Nested more →
          Nested ((.opening tag :: (inner ++ [.closing tag])) ++ more) := by
        intro more hmore
        have hwhole : Nested (.opening tag :: (inner ++ .closing tag :: more)) :=
          .enclosed hinner hmore
        simpa using hwhole
      simpa using houter.append _ hfront

/-! ## The check -/

theorem Nested.closes_append {markers : List Marker} (hnested : Nested markers)
    (opened : List String) (behind : List Marker) :
    Markup.closes opened (markers ++ behind) = Markup.closes opened behind := by
  induction hnested generalizing opened behind with
  | nil => rfl
  | leaf _ ih => exact ih opened behind
  | @enclosed tag inner rest _ _ ihinner ihrest =>
      rw [List.cons_append, List.append_assoc, List.cons_append, Markup.closes, ihinner,
        Markup.closes, beq_self_eq_true, Bool.true_and, ihrest]

theorem closes_of_completes {opened : List String} {markers : List Marker}
    (hcompletes : Completes opened markers) : Markup.closes opened markers = true := by
  induction hcompletes with
  | @nested markers hnested =>
      rw [← List.append_nil markers, hnested.closes_append]
      rfl
  | closing hinner _ ih =>
      rw [hinner.closes_append, Markup.closes, beq_self_eq_true, Bool.true_and, ih]

theorem completes_of_closes {opened : List String} {markers : List Marker}
    (hcloses : Markup.closes opened markers = true) : Completes opened markers := by
  induction markers generalizing opened with
  | nil =>
      rw [List.isEmpty_iff.mp hcloses]
      exact .nested .nil
  | cons marker rest ih =>
      cases marker with
      | opening tag => exact (ih hcloses).enclosed
      | leaf tag value => exact (ih hcloses).leaf tag value
      | closing tag =>
          cases opened with
          | nil => contradiction
          | cons innermost outer =>
              rw [Markup.closes, Bool.and_eq_true, beq_iff_eq] at hcloses
              rw [hcloses.1]
              exact .closing .nil (ih hcloses.2)

theorem isWellNested_iff_nested (markup : Markup) :
    markup.isWellNested = true ↔ Nested markup.markers := by
  constructor
  · intro hcloses
    cases completes_of_closes hcloses with
    | nested hnested => exact hnested
  · intro hnested
    exact closes_of_completes (.nested hnested)

instance : DecidablePred Nested := fun markers =>
  decidable_of_iff _ (isWellNested_iff_nested ⟨markers⟩)

example : ¬Nested [.opening "term", .opening "expression", .closing "term",
    .closing "expression"] := by decide

/-! ## Markers of trees -/

theorem Forest.nested_markers (forest : Forest Token) : Nested forest.markers := by
  rw [← isWellNested_iff_nested ⟨forest.markers⟩, Markup.isWellNested,
    ← List.append_nil forest.markers, forest.closes_markers_append]
  rfl

/-- The check accepts the nested markers and no others.  The markers of a tree are nested
between an opening and a closing marker, and show its leaves in order. -/
theorem nesting_check_is_exact :
    (∀ markup : Markup, markup.isWellNested = true ↔ Nested markup.markers) ∧
    ∀ node : Node Token,
      (Markup.ofNode node).isWellNested = true ∧
      (∃ inner, Nested inner ∧ (Markup.ofNode node).markers =
        .opening node.rule.tag :: (inner ++ [.closing node.rule.tag])) ∧
      (Markup.ofNode node).leafCount = node.leaves.length ∧
      (Markup.ofNode node).leaves = node.leaves.map Marker.ofToken := by
  refine ⟨isWellNested_iff_nested, fun node => ?_⟩
  have hleaves := Markup.leaves_ofNode node
  have hcount : (Markup.ofNode node).leafCount = (Markup.ofNode node).leaves.length :=
    List.countP_eq_length_filter
  rw [hleaves, List.length_map] at hcount
  exact ⟨Markup.isWellNested_ofNode node, ⟨_, node.children.nested_markers, rfl⟩, hcount, hleaves⟩

end JackTree
