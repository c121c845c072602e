import JackTree.Grammar.Progress

/-!
# What productions read

`Rule.parse` is computed by a run with fuel.  This module describes its
successes without fuel: a production relates the tokens before it to a forest
and the tokens behind it, once it is known what every rule reads.  Parsing is
the least solution of the equations that the grammar sets up in this way.
`Rule.parses_iff_reads` says that it is a solution, and `Rule.below_of_parses`
that every other relation closed under the productions contains it.
-/

namespace JackTree

/-- A relation between tokens, the forest read off them, and the tokens left. -/
abbrev Reading := List Token → Forest Token → List Token → Prop

inductive Repeats (guard : Guard) (body : Reading) : Reading
  | stop {tokens : List Token} (hguard : guard.holds tokens = false) :
      Repeats guard body tokens .nil tokens
  | again {tokens middle rest : List Token} {left right : Forest Token}
      (hguard : guard.holds tokens = true) (hbody : body tokens left middle)
      (hmore : Repeats guard body middle right rest) :
      Repeats guard body tokens (left ++ right) rest

theorem Repeats.mono {guard : Guard} {body more : Reading} {tokens rest : List Token}
    {forest : Forest Token}
    (hle : ∀ tokens forest rest, body tokens forest rest → more tokens forest rest)
    (hrepeats : Repeats guard body tokens forest rest) :
    Repeats guard more tokens forest rest := by
  induction hrepeats with
  | stop hguard => exact .stop hguard
  | again hguard hbody _ ih => exact .again hguard (hle _ _ _ hbody) ih

/-- What a production reads, given what stands below a node of each rule. -/
def Production.Reads (below : Rule → Reading) : Production → Reading
  | done, tokens, forest, rest => forest = .nil ∧ rest = tokens
  | word lexeme after, tokens, forest, rest =>
    ∃ token tail behind, tokens = token :: tail ∧ token.lexeme = lexeme ∧
      after.Reads below tail behind rest ∧ forest = .leaf token behind
  | any after, tokens, forest, rest =>
    ∃ token tail behind, tokens = token :: tail ∧
      after.Reads below tail behind rest ∧ forest = .leaf token behind
  | rule r after, tokens, forest, rest =>
    ∃ children middle behind, below r tokens children middle ∧
      after.Reads below middle behind rest ∧ forest = .node r children behind
  | statement after, tokens, forest, rest =>
    ∃ r children middle behind, statementRule? tokens = some r ∧
      below r tokens children middle ∧
      after.Reads below middle behind rest ∧ forest = .node r children behind
  | optional guard body after, tokens, forest, rest =>
    if guard.holds tokens = true then
      ∃ left middle right, body.Reads below tokens left middle ∧
        after.Reads below middle right rest ∧ forest = left ++ right
    else after.Reads below tokens forest rest
  | repeated guard body after, tokens, forest, rest =>
    ∃ left middle right, Repeats guard (body.Reads below) tokens left middle ∧
      after.Reads below middle right rest ∧ forest = left ++ right
  | choice guard yes no, tokens, forest, rest =>
    if guard.holds tokens = true then yes.Reads below tokens forest rest
    else no.Reads below tokens forest rest

namespace Production

/-! ## From runs to readings -/

/-- A relation that contains everything read by its own productions contains
everything that a run reads. -/
theorem reads_of_run (below : Rule → Reading)
    (hclosed : ∀ r tokens children rest,
      r.production.Reads below tokens children rest → below r tokens children rest)
    {fuel : Nat} {production : Production} {tokens rest : List Token}
    {forest : Forest Token} (hrun : run fuel production tokens = some (.read forest rest)) :
    production.Reads below tokens forest rest := by
  induction fuel generalizing production tokens forest rest with
  | zero => simp [run] at hrun
  | succ fuel ih =>
      cases production with
      | done =>
          simp only [run, Option.some.injEq, Outcome.read.injEq] at hrun
          exact ⟨hrun.1.symm, hrun.2.symm⟩
      | word lexeme after =>
          cases tokens with
          | nil => simp [run] at hrun
          | cons token tail =>
              rw [run] at hrun
              split at hrun
              next hword =>
                obtain ⟨behind, hafter, hforest⟩ := Outcome.map_mapForest_eq_read hrun
                exact ⟨token, tail, behind, rfl, hword, ih hafter, hforest⟩
              next => simp at hrun
      | any after =>
          cases tokens with
          | nil => simp [run] at hrun
          | cons token tail =>
              rw [run] at hrun
              obtain ⟨behind, hafter, hforest⟩ := Outcome.map_mapForest_eq_read hrun
              exact ⟨token, tail, behind, rfl, ih hafter, hforest⟩
      | rule r after =>
          rw [run] at hrun
          obtain ⟨children, middle, behind, hchildren, hafter, hforest⟩ :=
            Outcome.bind_andThen_eq_read hrun
          exact ⟨children, middle, behind, hclosed _ _ _ _ (ih hchildren),
            ih hafter, hforest⟩
      | statement after =>
          rw [run] at hrun
          split at hrun
          next => simp at hrun
          next r hrule =>
            obtain ⟨children, middle, behind, hchildren, hafter, hforest⟩ := ih hrun
            exact ⟨r, children, middle, behind, hrule, hchildren, hafter, hforest⟩
      | optional guard body after =>
          rw [run] at hrun
          unfold Reads
          split at hrun
          next hguard =>
            rw [if_pos hguard]
            obtain ⟨left, middle, right, hbody, hafter, hforest⟩ :=
              Outcome.bind_andThen_eq_read hrun
            exact ⟨left, middle, right, ih hbody, ih hafter, hforest⟩
          next hguard =>
            rw [if_neg hguard]
            exact ih hrun
      | repeated guard body after =>
          rw [run] at hrun
          split at hrun
          next hguard =>
            obtain ⟨first, next, others, hbody, hagain, rfl⟩ :=
              Outcome.bind_andThen_eq_read hrun
            obtain ⟨left, middle, right, hmore, hafter, rfl⟩ := ih hagain
            exact ⟨first ++ left, middle, right, .again hguard (ih hbody) hmore,
              hafter, (Forest.append_assoc ..).symm⟩
          next hguard =>
            exact ⟨.nil, tokens, forest, .stop (by simpa using hguard), ih hrun,
              rfl⟩
      | choice guard yes no =>
          rw [run] at hrun
          unfold Reads
          split at hrun
          next hguard =>
            rw [if_pos hguard]
            exact ih hrun
          next hguard =>
            rw [if_neg hguard]
            exact ih hrun

/-! ## From readings to runs -/

def RunsTo (production : Production) : Reading :=
  fun tokens forest rest => ∃ fuel, run fuel production tokens = some (.read forest rest)

theorem bind_andThen_of_runsTo {first second : Production}
    (around : Failure → Failure) (join : Forest Token → Forest Token → Forest Token)
    {tokens middle rest : List Token} {left right : Forest Token}
    (hfirst : first.RunsTo tokens left middle) (hsecond : second.RunsTo middle right rest) :
    ∃ fuel, ((run fuel first tokens).bind fun o => o.andThen around join (run fuel second)) =
      some (.read (join left right) rest) := by
  obtain ⟨m, hm⟩ := hfirst
  obtain ⟨n, hn⟩ := hsecond
  refine ⟨max m n, ?_⟩
  rw [run_of_le (Nat.le_max_left m n) hm]
  simp only [Option.bind_some, Outcome.andThen]
  rw [run_of_le (Nat.le_max_right m n) hn]
  rfl

theorem runsTo_repeated {guard : Guard} {body after : Production}
    {tokens middle rest : List Token} {left right : Forest Token}
    (hbody : Repeats guard body.RunsTo tokens left middle)
    (hafter : after.RunsTo middle right rest) :
    (repeated guard body after).RunsTo tokens (left ++ right) rest := by
  induction hbody with
  | stop hguard =>
      obtain ⟨fuel, hfuel⟩ := hafter
      refine ⟨fuel + 1, ?_⟩
      rw [run, hguard]
      exact hfuel
  | again hguard hfirst _ ih =>
      obtain ⟨fuel, hfuel⟩ :=
        bind_andThen_of_runsTo id (· ++ ·) hfirst (ih hafter)
      refine ⟨fuel + 1, ?_⟩
      rw [run, if_pos hguard, hfuel, Forest.append_assoc]

theorem runsTo_of_reads {production : Production} {tokens rest : List Token}
    {forest : Forest Token}
    (hreads : production.Reads (fun r => r.production.RunsTo) tokens forest rest) :
    production.RunsTo tokens forest rest := by
  induction production generalizing tokens forest rest with
  | done =>
      obtain ⟨rfl, rfl⟩ := hreads
      exact ⟨1, rfl⟩
  | word lexeme after ih =>
      obtain ⟨token, tail, behind, rfl, hword, hafter, rfl⟩ := hreads
      obtain ⟨fuel, hfuel⟩ := ih hafter
      refine ⟨fuel + 1, ?_⟩
      rw [run, if_pos hword, hfuel]
      rfl
  | any after ih =>
      obtain ⟨token, tail, behind, rfl, hafter, rfl⟩ := hreads
      obtain ⟨fuel, hfuel⟩ := ih hafter
      refine ⟨fuel + 1, ?_⟩
      rw [run, hfuel]
      rfl
  | rule r after ih =>
      obtain ⟨children, middle, behind, hchildren, hafter, rfl⟩ := hreads
      obtain ⟨fuel, hfuel⟩ :=
        bind_andThen_of_runsTo (.within r) (.node r) hchildren (ih hafter)
      exact ⟨fuel + 1, by rw [run, hfuel]⟩
  | statement after ih =>
      obtain ⟨r, children, middle, behind, hrule, hchildren, hafter, rfl⟩ := hreads
      obtain ⟨fuel, hfuel⟩ :=
        bind_andThen_of_runsTo (.within r) (.node r) hchildren (ih hafter)
      refine ⟨fuel + 2, ?_⟩
      rw [run, hrule]
      simp only
      rw [run, hfuel]
  | optional guard body after ihbody ihafter =>
      unfold Reads at hreads
      split at hreads
      next hguard =>
        obtain ⟨left, middle, right, hbody, hafter, rfl⟩ := hreads
        obtain ⟨fuel, hfuel⟩ :=
          bind_andThen_of_runsTo id (· ++ ·) (ihbody hbody)
            (ihafter hafter)
        exact ⟨fuel + 1, by rw [run, if_pos hguard, hfuel]⟩
      next hguard =>
        obtain ⟨fuel, hfuel⟩ := ihafter hreads
        exact ⟨fuel + 1, by rw [run, if_neg hguard, hfuel]⟩
  | repeated guard body after ihbody ihafter =>
      obtain ⟨left, middle, right, hbody, hafter, rfl⟩ := hreads
      exact runsTo_repeated (hbody.mono fun _ _ _ => ihbody) (ihafter hafter)
  | choice guard yes no ihyes ihno =>
      unfold Reads at hreads
      split at hreads
      next hguard =>
        obtain ⟨fuel, hfuel⟩ := ihyes hreads
        exact ⟨fuel + 1, by rw [run, if_pos hguard, hfuel]⟩
      next hguard =>
        obtain ⟨fuel, hfuel⟩ := ihno hreads
        exact ⟨fuel + 1, by rw [run, if_neg hguard, hfuel]⟩

theorem Reads.mono {below above : Rule → Reading}
    (hle : ∀ r tokens children rest, below r tokens children rest → above r tokens children rest)
    {production : Production} {tokens rest : List Token} {forest : Forest Token}
    (hreads : production.Reads below tokens forest rest) :
    production.Reads above tokens forest rest := by
  induction production generalizing tokens forest rest with
  | done => exact hreads
  | word lexeme after ih =>
      obtain ⟨token, tail, behind, htokens, hword, hafter, hforest⟩ := hreads
      exact ⟨token, tail, behind, htokens, hword, ih hafter, hforest⟩
  | any after ih =>
      obtain ⟨token, tail, behind, htokens, hafter, hforest⟩ := hreads
      exact ⟨token, tail, behind, htokens, ih hafter, hforest⟩
  | rule r after ih =>
      obtain ⟨children, middle, behind, hchildren, hafter, hforest⟩ := hreads
      exact ⟨children, middle, behind, hle _ _ _ _ hchildren, ih hafter, hforest⟩
  | statement after ih =>
      obtain ⟨r, children, middle, behind, hrule, hchildren, hafter, hforest⟩ := hreads
      exact ⟨r, children, middle, behind, hrule, hle _ _ _ _ hchildren, ih hafter, hforest⟩
  | optional guard body after ihbody ihafter =>
      unfold Reads at hreads ⊢
      split at hreads
      next hguard =>
        rw [if_pos hguard]
        obtain ⟨left, middle, right, hbody, hafter, hforest⟩ := hreads
        exact ⟨left, middle, right, ihbody hbody, ihafter hafter, hforest⟩
      next hguard =>
        rw [if_neg hguard]
        exact ihafter hreads
  | repeated guard body after ihbody ihafter =>
      obtain ⟨left, middle, right, hbody, hafter, hforest⟩ := hreads
      exact ⟨left, middle, right, hbody.mono fun _ _ _ => ihbody, ihafter hafter, hforest⟩
  | choice guard yes no ihyes ihno =>
      unfold Reads at hreads ⊢
      split at hreads
      next hguard =>
        rw [if_pos hguard]
        exact ihyes hreads
      next hguard =>
        rw [if_neg hguard]
        exact ihno hreads

end Production

/-! ## Parsing as the least solution -/

def Rule.Parses (r : Rule) : Reading :=
  fun tokens children rest => r.parse tokens = .read children rest

theorem Rule.parses_iff_runsTo {r : Rule} {tokens rest : List Token} {children : Forest Token} :
    r.Parses tokens children rest ↔ r.production.RunsTo tokens children rest := by
  have henough : Production.run (enoughFuel tokens) r.production tokens =
      some ((Production.run (enoughFuel tokens) r.production tokens).get
        (r.run_isSome tokens)) := by
    simp
  unfold Rule.Parses Rule.parse
  constructor
  · intro hparse
    split at hparse
    next children' rest' hget =>
      simp only [Outcome.read.injEq] at hparse
      obtain ⟨rfl, rfl⟩ := hparse
      exact ⟨enoughFuel tokens, by rw [henough, hget]⟩
    next => simp at hparse
  · rintro ⟨fuel, hrun⟩
    have hmore := Production.run_of_le (Nat.le_max_left fuel (enoughFuel tokens)) hrun
    have hagree := Production.run_of_le (Nat.le_max_right fuel (enoughFuel tokens)) henough
    rw [hmore, Option.some.injEq] at hagree
    rw [← hagree]

theorem Rule.parses_iff_reads {r : Rule} {tokens rest : List Token} {children : Forest Token} :
    r.Parses tokens children rest ↔
      r.production.Reads Rule.Parses tokens children rest := by
  constructor
  · intro hparse
    obtain ⟨fuel, hrun⟩ := Rule.parses_iff_runsTo.mp hparse
    have hbelow := Production.reads_of_run
      (fun r => r.production.RunsTo) (fun _ _ _ _ => Production.runsTo_of_reads) hrun
    exact hbelow.mono fun _ _ _ _ => Rule.parses_iff_runsTo.mpr
  · intro hreads
    apply Rule.parses_iff_runsTo.mpr
    apply Production.runsTo_of_reads
    exact hreads.mono fun _ _ _ _ => Rule.parses_iff_runsTo.mp

theorem Rule.below_of_parses (below : Rule → Reading)
    (hclosed : ∀ r tokens children rest,
      r.production.Reads below tokens children rest → below r tokens children rest)
    {r : Rule} {tokens rest : List Token} {children : Forest Token}
    (hparse : r.Parses tokens children rest) : below r tokens children rest := by
  obtain ⟨fuel, hrun⟩ := Rule.parses_iff_runsTo.mp hparse
  exact hclosed _ _ _ _ (Production.reads_of_run below hclosed hrun)

/-! ## Productions one after another -/

def Production.followedBy : Production → Production → Production
  | done, next => next
  | word lexeme after, next => word lexeme (after.followedBy next)
  | any after, next => any (after.followedBy next)
  | rule r after, next => rule r (after.followedBy next)
  | statement after, next => statement (after.followedBy next)
  | optional guard body after, next => optional guard body (after.followedBy next)
  | repeated guard body after, next => repeated guard body (after.followedBy next)
  | choice guard yes no, next => choice guard (yes.followedBy next) (no.followedBy next)

namespace Production

variable {below : Rule → Reading} {tokens rest : List Token} {forest : Forest Token}

theorem reads_followedBy_iff {p q : Production} :
    (p.followedBy q).Reads below tokens forest rest ↔
      ∃ left middle right, p.Reads below tokens left middle ∧
        q.Reads below middle right rest ∧ forest = left ++ right := by
  induction p generalizing tokens forest with
  | done =>
      constructor
      · intro hnext
        exact ⟨.nil, tokens, forest, ⟨rfl, rfl⟩, hnext, rfl⟩
      · rintro ⟨_, _, right, ⟨rfl, rfl⟩, hnext, rfl⟩
        exact hnext
  | word lexeme after ih =>
      constructor
      · rintro ⟨token, tail, _, rfl, hword, hafter, rfl⟩
        obtain ⟨left, middle, right, hleft, hright, rfl⟩ := ih.mp hafter
        exact ⟨.leaf token left, middle, right, ⟨token, tail, left, rfl, hword, hleft, rfl⟩,
          hright, rfl⟩
      · rintro ⟨_, middle, right, ⟨token, tail, left, rfl, hword, hleft, rfl⟩, hright, rfl⟩
        exact ⟨token, tail, left ++ right, rfl, hword,
          ih.mpr ⟨left, middle, right, hleft, hright, rfl⟩, rfl⟩
  | any after ih =>
      constructor
      · rintro ⟨token, tail, _, rfl, hafter, rfl⟩
        obtain ⟨left, middle, right, hleft, hright, rfl⟩ := ih.mp hafter
        exact ⟨.leaf token left, middle, right, ⟨token, tail, left, rfl, hleft, rfl⟩,
          hright, rfl⟩
      · rintro ⟨_, middle, right, ⟨token, tail, left, rfl, hleft, rfl⟩, hright, rfl⟩
        exact ⟨token, tail, left ++ right, rfl,
          ih.mpr ⟨left, middle, right, hleft, hright, rfl⟩, rfl⟩
  | rule r after ih =>
      constructor
      · rintro ⟨children, between, _, hchildren, hafter, rfl⟩
        obtain ⟨left, middle, right, hleft, hright, rfl⟩ := ih.mp hafter
        exact ⟨.node r children left, middle, right,
          ⟨children, between, left, hchildren, hleft, rfl⟩, hright, rfl⟩
      · rintro ⟨_, middle, right, ⟨children, between, left, hchildren, hleft, rfl⟩, hright, rfl⟩
        exact ⟨children, between, left ++ right, hchildren,
          ih.mpr ⟨left, middle, right, hleft, hright, rfl⟩, rfl⟩
  | statement after ih =>
      constructor
      · rintro ⟨r, children, between, _, hrule, hchildren, hafter, rfl⟩
        obtain ⟨left, middle, right, hleft, hright, rfl⟩ := ih.mp hafter
        exact ⟨.node r children left, middle, right,
          ⟨r, children, between, left, hrule, hchildren, hleft, rfl⟩, hright, rfl⟩
      · rintro ⟨_, middle, right,
          ⟨r, children, between, left, hrule, hchildren, hleft, rfl⟩, hright, rfl⟩
        exact ⟨r, children, between, left ++ right, hrule, hchildren,
          ih.mpr ⟨left, middle, right, hleft, hright, rfl⟩, rfl⟩
  | optional guard body after ihbody ihafter =>
      simp only [followedBy, Reads]
      split
      next =>
        constructor
        · rintro ⟨first, between, _, hbody, hafter, rfl⟩
          obtain ⟨left, middle, right, hleft, hright, rfl⟩ := ihafter.mp hafter
          exact ⟨first ++ left, middle, right, ⟨first, between, left, hbody, hleft, rfl⟩,
            hright, (Forest.append_assoc ..).symm⟩
        · rintro ⟨_, middle, right, ⟨first, between, left, hbody, hleft, rfl⟩, hright, rfl⟩
          exact ⟨first, between, left ++ right, hbody,
            ihafter.mpr ⟨left, middle, right, hleft, hright, rfl⟩, Forest.append_assoc ..⟩
      next => exact ihafter
  | repeated guard body after ihbody ihafter =>
      constructor
      · rintro ⟨first, between, _, hbody, hafter, rfl⟩
        obtain ⟨left, middle, right, hleft, hright, rfl⟩ := ihafter.mp hafter
        exact ⟨first ++ left, middle, right, ⟨first, between, left, hbody, hleft, rfl⟩,
          hright, (Forest.append_assoc ..).symm⟩
      · rintro ⟨_, middle, right, ⟨first, between, left, hbody, hleft, rfl⟩, hright, rfl⟩
        exact ⟨first, between, left ++ right, hbody,
          ihafter.mpr ⟨left, middle, right, hleft, hright, rfl⟩, Forest.append_assoc ..⟩
  | choice guard yes no ihyes ihno =>
      simp only [followedBy, Reads]
      split
      next => exact ihyes
      next => exact ihno

theorem reads_repeated_done_iff {guard : Guard} {body : Production} :
    (repeated guard body done).Reads below tokens forest rest ↔
      Repeats guard (body.Reads below) tokens forest rest := by
  constructor
  · rintro ⟨left, middle, right, hbody, ⟨rfl, rfl⟩, rfl⟩
    rw [Forest.append_nil]
    exact hbody
  · intro hbody
    exact ⟨forest, rest, .nil, hbody, ⟨rfl, rfl⟩, (Forest.append_nil forest).symm⟩

theorem reads_optional_of_holds {guard : Guard} {body : Production}
    (hguard : guard.holds tokens = true) :
    (optional guard body done).Reads below tokens forest rest ↔
      body.Reads below tokens forest rest := by
  simp only [Reads, if_pos hguard]
  constructor
  · rintro ⟨left, middle, right, hbody, ⟨rfl, rfl⟩, rfl⟩
    rw [Forest.append_nil]
    exact hbody
  · intro hbody
    exact ⟨forest, rest, .nil, hbody, ⟨rfl, rfl⟩, (Forest.append_nil forest).symm⟩

theorem reads_optional_of_not_holds {guard : Guard} {body after : Production}
    (hguard : guard.holds tokens ≠ true) :
    (optional guard body after).Reads below tokens forest rest ↔
      after.Reads below tokens forest rest := by
  simp only [Reads, if_neg hguard]

end Production

end JackTree
