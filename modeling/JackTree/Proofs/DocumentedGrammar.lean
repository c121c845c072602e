import JackTree.Proofs.ParserHistory

/-!
# The documented grammar

The grammar of the Jack language asks for more than the parser does.  A subroutine
starts with `constructor`, `function` or `method`, and a comma stands between any
two expressions of a list and nowhere else.  The parser takes any token for the
first word of a subroutine and treats every comma of a list as optional.
`class_conforms_iff_documented` says in which classes this makes no difference: the
tree of an accepted class has the documented shape just when the productions as
they are documented derive the same tree.  Class variables always have it.
-/

namespace JackTree

open Production

/-! ## Nodes of a tree -/

section
variable {α : Type}

/-- Every node of a forest, also below other nodes. -/
def Forest.allNodes : Forest α → List (Node α)
  | nil => []
  | leaf _ rest => rest.allNodes
  | node r children rest => ⟨r, children⟩ :: (children.allNodes ++ rest.allNodes)

/-- A node and every node below it. -/
def Node.subtrees (node : Node α) : List (Node α) :=
  node :: node.children.allNodes

@[simp] theorem Forest.nodes_append (left right : Forest α) :
    (left ++ right).nodes = left.nodes ++ right.nodes := by
  induction left <;> simp_all [Forest.nodes]

theorem Forest.mem_allNodes_iff {forest : Forest α} {inner : Node α} :
    inner ∈ forest.allNodes ↔ ∃ child ∈ forest.nodes, inner ∈ child.subtrees := by
  induction forest with
  | nil => simp [allNodes, nodes]
  | leaf value rest ih => exact ih
  | node r children rest _ ih => simp [allNodes, nodes, Node.subtrees, ih, or_assoc]

theorem Node.forall_subtrees_iff {node : Node α} {p : Node α → Prop} :
    (∀ inner ∈ node.subtrees, p inner) ↔
      p node ∧ ∀ child ∈ node.children.nodes, ∀ inner ∈ child.subtrees, p inner := by
  rw [subtrees, List.forall_mem_cons]
  refine and_congr_right fun _ => ?_
  constructor
  · intro hbelow child hchild inner hinner
    exact hbelow inner (Forest.mem_allNodes_iff.mpr ⟨child, hchild, hinner⟩)
  · intro hchildren inner hinner
    rcases Forest.mem_allNodes_iff.mp hinner with ⟨child, hchild, hmem⟩
    exact hchildren child hchild inner hmem

end

/-! ## Documented shapes -/

def Forest.startsWith (words : List String) : Forest Token → Bool
  | leaf token _ => words.contains token.lexeme
  | _ => false

/-- An expression, and others behind it with a comma in front of each. -/
def Forest.isSeparated : Forest Token → Bool
  | node .expression _ nil => true
  | node .expression _ (leaf comma rest) => comma.lexeme == "," && rest.isSeparated
  | _ => false

def classVarWords : List String := ["static", "field"]

def subroutineWords : List String := ["constructor", "function", "method"]

/-- Whether the children of a node stand as they are documented. -/
def Node.isDocumented (node : Node Token) : Bool :=
  match node.rule with
  | .classVarDec => node.children.startsWith classVarWords
  | .subroutineDec => node.children.startsWith subroutineWords
  | .expressionList => node.children == .nil || node.children.isSeparated
  | _ => true

def Node.Conforms (node : Node Token) : Prop :=
  ∀ inner ∈ node.subtrees, inner.isDocumented = true

instance (node : Node Token) : Decidable node.Conforms :=
  inferInstanceAs (Decidable (∀ inner ∈ node.subtrees, inner.isDocumented = true))

/-! ## Documented productions -/

/-- A token that reads one of some words. -/
def Production.oneOf (first : String) (others : List String) (after : Production) : Production :=
  match others with
  | [] => word first after
  | next :: more => choice (.next [first]) (word first after) (oneOf next more after)

/-- One more expression of a list, behind a comma. -/
def Production.furtherItem : Production :=
  word "," (rule .expression done)

/-- The productions with the words and the commas that their documentation asks for. -/
def Rule.documented : Rule → Production
  | classVarDec =>
    oneOf "static" ["field"] <| any <| any <| moreNames <| word ";" done
  | subroutineDec =>
    oneOf "constructor" ["function", "method"] <| any <| any <| word "(" <|
    rule .parameterList <| word ")" <| rule .subroutineBody done
  | expressionList =>
    optional (.notNext ")") (rule .expression (repeated (.next [","]) furtherItem done)) done
  | r => r.production

/-- What a table of productions derives: the least relation that it is closed under. -/
def DerivedBy (table : Rule → Production) (r : Rule) : Reading :=
  fun tokens children rest =>
    ∀ below : Rule → Reading,
      (∀ r tokens children rest,
        (table r).Reads below tokens children rest → below r tokens children rest) →
      below r tokens children rest

theorem DerivedBy.intro {table : Rule → Production} {r : Rule} {tokens rest : List Token}
    {children : Forest Token}
    (hreads : (table r).Reads (DerivedBy table) tokens children rest) :
    DerivedBy table r tokens children rest := by
  intro below hclosed
  exact hclosed _ _ _ _ (hreads.mono fun _ _ _ _ hderived => hderived below hclosed)

theorem Production.reads_oneOf_iff {below : Rule → Reading} {first : String}
    {others : List String} {after : Production} {tokens rest : List Token}
    {forest : Forest Token} :
    (oneOf first others after).Reads below tokens forest rest ↔
      ∃ token tail behind, tokens = token :: tail ∧ token.lexeme ∈ first :: others ∧
        after.Reads below tail behind rest ∧ forest = .leaf token behind := by
  induction others generalizing first with
  | nil => simp [oneOf, Reads]
  | cons next more ih =>
      rw [oneOf, Reads]
      split
      next hguard =>
        rcases Guard.holds_next_iff.mp hguard with ⟨word, hword, hnext⟩
        rw [List.mem_singleton.mp hword] at hnext
        constructor
        · rintro ⟨token, tail, behind, rfl, hfirst, hafter, rfl⟩
          exact ⟨token, tail, behind, rfl, hfirst ▸ List.mem_cons_self, hafter, rfl⟩
        · rintro ⟨token, tail, behind, rfl, _, hafter, rfl⟩
          exact ⟨token, tail, behind, rfl, Option.some.inj hnext, hafter, rfl⟩
      next hguard =>
        rw [ih]
        constructor
        · rintro ⟨token, tail, behind, rfl, hmem, hafter, rfl⟩
          exact ⟨token, tail, behind, rfl, List.mem_cons_of_mem first hmem, hafter, rfl⟩
        · rintro ⟨token, tail, behind, rfl, hmem, hafter, rfl⟩
          have hother : token.lexeme ≠ first := by
            intro hfirst
            exact hguard (Guard.holds_next_iff.mpr ⟨first, by simp, congrArg some hfirst⟩)
          exact ⟨token, tail, behind, rfl, List.mem_of_ne_of_mem hother hmem, hafter, rfl⟩

/-! ## Nodes of readings -/

section
variable {below above : Rule → Reading} {tokens rest : List Token} {forest : Forest Token}

theorem Repeats.imp_of_nodes {guard : Guard} {body more : Reading}
    (hle : ∀ tokens part rest, (∀ child ∈ part.nodes, child ∈ forest.nodes) →
      body tokens part rest → more tokens part rest)
    (hrepeats : Repeats guard body tokens forest rest) :
    Repeats guard more tokens forest rest := by
  induction hrepeats with
  | stop hguard => exact .stop hguard
  | @again tokens middle rest left right hguard hbody _ ih =>
      have hleft : ∀ child ∈ left.nodes, child ∈ (left ++ right).nodes := by
        simp +contextual
      have hright : ∀ child ∈ right.nodes, child ∈ (left ++ right).nodes := by
        simp +contextual
      refine .again hguard (hle _ _ _ hleft hbody) (ih fun _ _ _ hpart => ?_)
      exact hle _ _ _ fun child hchild => hright child (hpart child hchild)

/-- A reading only depends on what the rules of its own nodes read. -/
theorem Production.Reads.imp_of_nodes {production : Production}
    (hle : ∀ child ∈ forest.nodes, ∀ tokens rest,
      below child.rule tokens child.children rest → above child.rule tokens child.children rest)
    (hreads : production.Reads below tokens forest rest) :
    production.Reads above tokens forest rest := by
  induction production generalizing tokens forest rest with
  | done => exact hreads
  | word lexeme after ih =>
      obtain ⟨token, tail, behind, htokens, hword, hafter, rfl⟩ := hreads
      exact ⟨token, tail, behind, htokens, hword, ih hle hafter, rfl⟩
  | any after ih =>
      obtain ⟨token, tail, behind, htokens, hafter, rfl⟩ := hreads
      exact ⟨token, tail, behind, htokens, ih hle hafter, rfl⟩
  | rule r after ih =>
      obtain ⟨children, middle, behind, hchildren, hafter, rfl⟩ := hreads
      rw [Forest.nodes, List.forall_mem_cons] at hle
      exact ⟨children, middle, behind, hle.1 _ _ hchildren, ih hle.2 hafter, rfl⟩
  | statement after ih =>
      obtain ⟨r, children, middle, behind, hrule, hchildren, hafter, rfl⟩ := hreads
      rw [Forest.nodes, List.forall_mem_cons] at hle
      exact ⟨r, children, middle, behind, hrule, hle.1 _ _ hchildren, ih hle.2 hafter, rfl⟩
  | optional guard body after ihbody ihafter =>
      unfold Reads at hreads ⊢
      split at hreads
      next hguard =>
        rw [if_pos hguard]
        obtain ⟨left, middle, right, hbody, hafter, rfl⟩ := hreads
        rw [Forest.nodes_append, List.forall_mem_append] at hle
        exact ⟨left, middle, right, ihbody hle.1 hbody, ihafter hle.2 hafter, rfl⟩
      next hguard =>
        rw [if_neg hguard]
        exact ihafter hle hreads
  | repeated guard body after ihbody ihafter =>
      obtain ⟨left, middle, right, hbody, hafter, rfl⟩ := hreads
      rw [Forest.nodes_append, List.forall_mem_append] at hle
      refine ⟨left, middle, right, hbody.imp_of_nodes fun _ _ _ hpart => ?_,
        ihafter hle.2 hafter, rfl⟩
      exact ihbody fun child hchild => hle.1 child (hpart child hchild)
  | choice guard yes no ihyes ihno =>
      unfold Reads at hreads ⊢
      split at hreads
      next hguard =>
        rw [if_pos hguard]
        exact ihyes hle hreads
      next hguard =>
        rw [if_neg hguard]
        exact ihno hle hreads

/-- Where a node of a forest comes from: its rule, which the production enters, has
read its children somewhere. -/
def Production.Supplies (production : Production) (below : Rule → Reading)
    (child : Node Token) : Prop :=
  child.rule ∈ production.invoked ∧
    ∃ tokens rest, below child.rule tokens child.children rest

theorem Production.Supplies.mono {production more : Production} {child : Node Token}
    (hle : ∀ r ∈ production.invoked, r ∈ more.invoked)
    (hsupplies : production.Supplies below child) : more.Supplies below child :=
  ⟨hle _ hsupplies.1, hsupplies.2⟩

theorem Repeats.supplied {guard : Guard} {body : Production}
    (hbody : ∀ {tokens rest : List Token} {forest : Forest Token},
      body.Reads below tokens forest rest → ∀ child ∈ forest.nodes, body.Supplies below child)
    (hrepeats : Repeats guard (body.Reads below) tokens forest rest) :
    ∀ child ∈ forest.nodes, body.Supplies below child := by
  induction hrepeats with
  | stop _ => exact List.forall_mem_nil _
  | again _ hfirst _ ih =>
      rw [Forest.nodes_append, List.forall_mem_append]
      exact ⟨hbody hfirst, ih⟩

theorem Production.Reads.supplied {production : Production}
    (hreads : production.Reads below tokens forest rest) :
    ∀ child ∈ forest.nodes, production.Supplies below child := by
  induction production generalizing tokens forest rest with
  | done =>
      obtain ⟨rfl, _⟩ := hreads
      exact List.forall_mem_nil _
  | word lexeme after ih =>
      obtain ⟨_, _, _, _, _, hafter, rfl⟩ := hreads
      exact fun child hchild => (ih hafter child hchild).mono fun _ => id
  | any after ih =>
      obtain ⟨_, _, _, _, hafter, rfl⟩ := hreads
      exact fun child hchild => (ih hafter child hchild).mono fun _ => id
  | rule r after ih =>
      obtain ⟨children, middle, behind, hchildren, hafter, rfl⟩ := hreads
      rw [Forest.nodes, List.forall_mem_cons]
      refine ⟨⟨List.mem_cons_self, _, _, hchildren⟩, fun child hchild => ?_⟩
      exact (ih hafter child hchild).mono fun _ => List.mem_cons_of_mem r
  | statement after ih =>
      obtain ⟨r, children, middle, behind, hrule, hchildren, hafter, rfl⟩ := hreads
      rw [Forest.nodes, List.forall_mem_cons]
      refine ⟨⟨mem_invoked_of_statementRule? hrule, _, _, hchildren⟩, fun child hchild => ?_⟩
      exact (ih hafter child hchild).mono fun _ => List.mem_append_right _
  | optional guard body after ihbody ihafter =>
      unfold Reads at hreads
      split at hreads
      next =>
        obtain ⟨left, middle, right, hbody, hafter, rfl⟩ := hreads
        rw [Forest.nodes_append, List.forall_mem_append]
        exact ⟨fun child hchild => (ihbody hbody child hchild).mono fun _ => List.mem_append_left _,
          fun child hchild => (ihafter hafter child hchild).mono fun _ => List.mem_append_right _⟩
      next =>
        intro child hchild
        exact (ihafter hreads child hchild).mono fun _ => List.mem_append_right _
  | repeated guard body after ihbody ihafter =>
      obtain ⟨left, middle, right, hbody, hafter, rfl⟩ := hreads
      rw [Forest.nodes_append, List.forall_mem_append]
      exact ⟨fun child hchild =>
          (hbody.supplied ihbody child hchild).mono fun _ => List.mem_append_left _,
        fun child hchild => (ihafter hafter child hchild).mono fun _ => List.mem_append_right _⟩
  | choice guard yes no ihyes ihno =>
      unfold Reads at hreads
      split at hreads
      next =>
        intro child hchild
        exact (ihyes hreads child hchild).mono fun _ => List.mem_append_left _
      next =>
        intro child hchild
        exact (ihno hreads child hchild).mono fun _ => List.mem_append_right _

end

/-! ## From documented derivations to documented shapes -/

section
variable {below : Rule → Reading} {tokens rest : List Token} {forest : Forest Token}

theorem isSeparated_of_repeats {children : Forest Token}
    (hrepeats : Repeats (.next [","]) (furtherItem.Reads below) tokens forest rest) :
    (Forest.node .expression children forest).isSeparated = true := by
  induction hrepeats generalizing children with
  | stop _ => rfl
  | again _ hfirst _ ih =>
      obtain ⟨comma, _, _, _, hcomma, ⟨next, _, _, _, ⟨rfl, _⟩, rfl⟩, rfl⟩ := hfirst
      simp only [Forest.leaf_append, Forest.node_append, Forest.nil_append, Forest.isSeparated,
        Bool.and_eq_true, beq_iff_eq]
      exact ⟨hcomma, ih⟩

theorem isDocumented_of_reads {r : Rule}
    (hreads : r.documented.Reads below tokens forest rest) :
    (Node.mk r forest).isDocumented = true := by
  cases r with
  | classVarDec =>
      obtain ⟨token, _, _, _, hword, _, rfl⟩ := reads_oneOf_iff.mp hreads
      exact List.contains_iff_mem.mpr hword
  | subroutineDec =>
      obtain ⟨token, _, _, _, hword, _, rfl⟩ := reads_oneOf_iff.mp hreads
      exact List.contains_iff_mem.mpr hword
  | expressionList =>
      unfold Rule.documented Reads at hreads
      split at hreads
      next =>
        obtain ⟨_, _, _, ⟨children, _, _, _, hothers, rfl⟩, ⟨rfl, _⟩, rfl⟩ := hreads
        rw [reads_repeated_done_iff] at hothers
        simp [Node.isDocumented, isSeparated_of_repeats hothers]
      next =>
        obtain ⟨rfl, _⟩ := hreads
        rfl
  | _ => rfl

theorem conforms_of_derivedBy {r : Rule}
    (hderived : DerivedBy Rule.documented r tokens forest rest) :
    (Node.mk r forest).Conforms := by
  refine hderived (fun r _ children _ => (Node.mk r children).Conforms) ?_
  intro r tokens children rest hreads
  refine Node.forall_subtrees_iff.mpr ⟨isDocumented_of_reads hreads, fun child hchild => ?_⟩
  obtain ⟨_, _, _, hconforms⟩ := hreads.supplied child hchild
  exact hconforms

/-! ## From documented shapes to documented derivations -/

/-- An expression of a list as the parser takes it, with a comma behind it or not. -/
def Production.looseItem : Production :=
  rule .expression (optional (.next [","]) (word "," done) done)

theorem looseItem_cases (hreads : looseItem.Reads below tokens forest rest) :
    (∃ children comma, below .expression tokens children (comma :: rest) ∧
      comma.lexeme = "," ∧ forest = .node .expression children (.leaf comma .nil)) ∨
    (∃ children, below .expression tokens children rest ∧
      (Guard.next [","]).holds rest ≠ true ∧ forest = .node .expression children .nil) := by
  obtain ⟨children, middle, behind, hchildren, hcomma, rfl⟩ := hreads
  unfold Reads at hcomma
  split at hcomma
  next =>
    obtain ⟨_, _, _, ⟨comma, _, _, rfl, hlexeme, ⟨rfl, rfl⟩, rfl⟩, ⟨rfl, rfl⟩, rfl⟩ := hcomma
    exact .inl ⟨children, comma, hchildren, hlexeme, rfl⟩
  next hguard =>
    obtain ⟨rfl, rfl⟩ := hcomma
    exact .inr ⟨children, hchildren, hguard, rfl⟩

/-- A list of loose items reads as documented once its commas separate. -/
theorem reads_documented_list
    (hrepeats : Repeats (.notNext ")") (looseItem.Reads below) tokens forest rest)
    (hseparated : forest.isSeparated = true) :
    (rule .expression (repeated (.next [","]) furtherItem done)).Reads
      below tokens forest rest := by
  induction hrepeats with
  | stop _ => simp [Forest.isSeparated] at hseparated
  | @again _ middle _ _ _ _ hitem hmore ih =>
      rcases looseItem_cases hitem with
        ⟨children, comma, hchildren, hlexeme, rfl⟩ | ⟨children, hchildren, hguard, rfl⟩
      · simp only [Forest.leaf_append, Forest.node_append, Forest.nil_append, Forest.isSeparated,
          Bool.and_eq_true] at hseparated
        obtain ⟨next, behind, others, hnext, hothers, rfl⟩ := ih hseparated.2
        have hcomma : (Guard.next [","]).holds (comma :: middle) = true :=
          Guard.holds_next_iff.mpr ⟨",", List.mem_singleton.mpr rfl, congrArg some hlexeme⟩
        have hitem : furtherItem.Reads below (comma :: middle)
            (.leaf comma (.node .expression next .nil)) behind :=
          ⟨comma, _, _, rfl, hlexeme, ⟨next, behind, .nil, hnext, ⟨rfl, rfl⟩, rfl⟩, rfl⟩
        have hagain := Repeats.again hcomma hitem (reads_repeated_done_iff.mp hothers)
        exact ⟨children, _, _, hchildren, reads_repeated_done_iff.mpr hagain, rfl⟩
      · cases hmore with
        | stop _ =>
            refine ⟨children, _, .nil, hchildren, reads_repeated_done_iff.mpr ?_, rfl⟩
            exact .stop (by simpa using hguard)
        | again _ hsecond _ =>
            rcases looseItem_cases hsecond with ⟨_, _, _, _, rfl⟩ | ⟨_, _, _, rfl⟩
            all_goals simp [Forest.isSeparated] at hseparated

theorem reads_documented_of_reads {r : Rule}
    (hreads : r.production.Reads below tokens forest rest)
    (hdocumented : (Node.mk r forest).isDocumented = true) :
    r.documented.Reads below tokens forest rest := by
  cases r with
  | classVarDec =>
      obtain ⟨token, tail, behind, rfl, hafter, rfl⟩ := hreads
      have hword := List.contains_iff_mem.mp hdocumented
      exact reads_oneOf_iff.mpr ⟨token, tail, behind, rfl, hword, hafter, rfl⟩
  | subroutineDec =>
      obtain ⟨token, tail, behind, rfl, hafter, rfl⟩ := hreads
      have hword := List.contains_iff_mem.mp hdocumented
      exact reads_oneOf_iff.mpr ⟨token, tail, behind, rfl, hword, hafter, rfl⟩
  | expressionList =>
      have hrepeats := reads_repeated_done_iff.mp hreads
      unfold Rule.documented
      cases hrepeats with
      | stop hguard =>
          rw [reads_optional_of_not_holds (by simp [hguard])]
          exact ⟨rfl, rfl⟩
      | again hguard hbody hmore =>
          rw [reads_optional_of_holds hguard]
          apply reads_documented_list (.again hguard hbody hmore)
          obtain ⟨_, _, _, _, _, rfl⟩ := hbody
          simpa [Node.isDocumented] using hdocumented
  | _ => exact hreads

theorem derivedBy_of_conforms {r : Rule} (hparse : r.Parses tokens forest rest)
    (hconforms : (Node.mk r forest).Conforms) :
    DerivedBy Rule.documented r tokens forest rest := by
  revert hconforms
  refine Rule.below_of_parses (fun r tokens children rest =>
    (Node.mk r children).Conforms → DerivedBy Rule.documented r tokens children rest) ?_ hparse
  intro r tokens children rest hreads hconforms
  rcases Node.forall_subtrees_iff.mp hconforms with ⟨hdocumented, hchildren⟩
  apply DerivedBy.intro
  apply reads_documented_of_reads _ hdocumented
  exact hreads.imp_of_nodes fun child hchild _ _ hbelow => hbelow (hchildren child hchild)

end

/-! ## Accepted shapes -/

/-- Expressions, each with a comma or nothing behind it. -/
def Forest.isLoose : Forest Token → Bool
  | nil => true
  | node .expression _ (leaf comma rest) => comma.lexeme == "," && rest.isLoose
  | node .expression _ rest => rest.isLoose
  | _ => false

/-- Whether the children of a node stand as the parser leaves them. -/
def Node.isAccepted (node : Node Token) : Bool :=
  match node.rule with
  | .classVarDec => node.children.startsWith classVarWords
  | .expressionList => node.children.isLoose
  | _ => true

section
variable {below : Rule → Reading} {tokens rest : List Token} {forest : Forest Token}

theorem isLoose_of_repeats
    (hrepeats : Repeats (.notNext ")") (looseItem.Reads below) tokens forest rest) :
    forest.isLoose = true := by
  induction hrepeats with
  | stop _ => rfl
  | @again _ _ _ _ right _ hitem _ ih =>
      rcases looseItem_cases hitem with ⟨_, _, _, hlexeme, rfl⟩ | ⟨_, _, _, rfl⟩
      · simp only [Forest.leaf_append, Forest.node_append, Forest.nil_append, Forest.isLoose,
          Bool.and_eq_true, beq_iff_eq]
        exact ⟨hlexeme, ih⟩
      · cases right with
        | nil => rfl
        | leaf token others => simp [Forest.isLoose] at ih
        | node r inner others => exact ih

/-- All nodes stand as the parser leaves them.  A class variable needs one of its
words ahead, which the class around it has looked for. -/
def Rule.Stands (r : Rule) : Reading := fun tokens children _ =>
  (r = .classVarDec → (Guard.next classVarWords).holds tokens = true) →
    ∀ inner ∈ (Node.mk r children).subtrees, inner.isAccepted = true

theorem isAccepted_of_reads {r : Rule} (hreads : r.production.Reads below tokens forest rest)
    (hfirst : r = .classVarDec → (Guard.next classVarWords).holds tokens = true) :
    (Node.mk r forest).isAccepted = true := by
  cases r with
  | classVarDec =>
      obtain ⟨token, tail, _, rfl, _, rfl⟩ := hreads
      exact hfirst rfl
  | expressionList => exact isLoose_of_repeats (reads_repeated_done_iff.mp hreads)
  | _ => rfl

theorem Repeats.guarded {guard : Guard} {r : Rule}
    (hrepeats : Repeats guard ((rule r done).Reads below) tokens forest rest) :
    ∀ child ∈ forest.nodes, child.rule = r ∧
      ∃ tokens rest, guard.holds tokens = true ∧ below r tokens child.children rest := by
  induction hrepeats with
  | stop _ => exact List.forall_mem_nil _
  | again hguard hfirst _ ih =>
      obtain ⟨children, _, _, hchildren, ⟨rfl, _⟩, rfl⟩ := hfirst
      rw [Forest.nodes_append, List.forall_mem_append]
      exact ⟨List.forall_mem_singleton.mpr ⟨rfl, _, _, hguard, hchildren⟩, ih⟩

theorem eq_classDec_of_mem_invoked {r : Rule} (hmem : .classVarDec ∈ r.production.invoked) :
    r = .classDec := by
  revert hmem
  cases r <;> decide

theorem stands_of_reads {r : Rule} (hreads : r.production.Reads Rule.Stands tokens forest rest) :
    r.Stands tokens forest rest := by
  intro hfirst
  refine Node.forall_subtrees_iff.mpr ⟨isAccepted_of_reads hreads hfirst, ?_⟩
  by_cases hclass : r = .classDec
  · subst hclass
    obtain ⟨_, _, _, _, _, ⟨_, _, _, _, ⟨_, _, _, _, _,
      ⟨fields, _, others, hfields, hothers, rfl⟩, rfl⟩, rfl⟩, rfl⟩ := hreads
    simp only [Forest.nodes, Forest.nodes_append, List.forall_mem_append]
    constructor
    · rintro ⟨_, _⟩ hchild
      rcases hfields.guarded _ hchild with ⟨rfl, _, _, hguard, hstands⟩
      exact hstands fun _ => hguard
    · intro child hchild
      rcases hothers.supplied child hchild with ⟨hmem, _, _, hstands⟩
      refine hstands fun hrule => ?_
      simp [invoked, hrule] at hmem
  · intro child hchild
    rcases hreads.supplied child hchild with ⟨hmem, _, _, hstands⟩
    refine hstands fun hrule => ?_
    exact absurd (eq_classDec_of_mem_invoked (hrule ▸ hmem)) hclass

end

/-- Every class variable of an accepted class starts with one of its words, and
every list holds expressions with at most one comma behind each.  The class has the
documented shape just when the documented productions derive the same tree. -/
theorem class_conforms_iff_documented {stream : TokenStream} {node : Node Token}
    (hparse : stream.parseClass = .ok node) :
    (∀ inner ∈ node.subtrees, inner.isAccepted = true) ∧
      (node.Conforms ↔
        DerivedBy Rule.documented .classDec stream.remaining node.children []) := by
  rcases TokenStream.parseClass_eq_ok_iff.mp hparse with ⟨hrule, hclass⟩
  obtain ⟨_, children⟩ := node
  obtain rfl : _ = Rule.classDec := hrule
  refine ⟨Rule.below_of_parses Rule.Stands (fun _ _ _ _ => stands_of_reads) hclass nofun, ?_⟩
  exact ⟨derivedBy_of_conforms hclass, conforms_of_derivedBy⟩

/-- A class whose only statement is a call. -/
def callingClass (kind : String) (arguments : List String) : TokenStream :=
  .ofTokens <| spell <|
    ["class", "Main", openBrace, kind, "void", "main", "(", ")", openBrace, "do", "draw", "("] ++
      arguments ++ [")", ";", "return", ";", closeBrace, closeBrace]

theorem class_conforms_iff_documented_in_calls :
    (∃ node, (callingClass "method" ["x", ",", "y"]).parseClass = .ok node ∧
      DerivedBy Rule.documented .classDec (callingClass "method" ["x", ",", "y"]).remaining
        node.children []) ∧
    ∃ node, (callingClass "method" ["x", ",", "f", "(", "y", "z", ")"]).parseClass = .ok node ∧
      ¬ DerivedBy Rule.documented .classDec
        (callingClass "method" ["x", ",", "f", "(", "y", "z", ")"]).remaining
        node.children [] := by
  constructor
  · refine ⟨_, rfl, (class_conforms_iff_documented rfl).2.mp ?_⟩
    decide +kernel
  · refine ⟨_, rfl, fun hderived => ?_⟩
    have hconforms := (class_conforms_iff_documented rfl).2.mpr hderived
    revert hconforms
    decide +kernel

/-- Classes are accepted without the comma between two arguments, with a comma
behind the last one, and with any first word of a subroutine. -/
theorem accepted_classes_need_not_conform :
    (∃ node, (callingClass "function" ["1", "2"]).parseClass = .ok node ∧ ¬ node.Conforms) ∧
    (∃ node, (callingClass "function" ["1", ","]).parseClass = .ok node ∧ ¬ node.Conforms) ∧
    ∃ node, (callingClass "procedure" []).parseClass = .ok node ∧ ¬ node.Conforms := by
  refine ⟨⟨_, rfl, ?_⟩, ⟨_, rfl, ?_⟩, ⟨_, rfl, ?_⟩⟩ <;> decide +kernel

end JackTree
