import JackTree.Proofs.TokenConservation

/-!
# The grammar as a derivation relation

`Derives phrase tokens forest rest` writes out the Jack grammar rule by rule:
`phrase` stands at the head of `tokens`, `forest` is its derivation tree, and
`rest` follows.  Names, types and operands are any one token, so nothing but
the next token decides where an optional or repeated part stands; every
production that leaves such a part out says what must not follow.  The main
statement is `parse_iff_derives`: parsing by a rule succeeds with a tree
if and only if the grammar derives that tree.
-/

namespace JackTree

def nextLexeme (tokens : List Token) : Option String :=
  tokens.head?.map Token.lexeme

def statementWords : List (String × Rule) :=
  [("let", .letStatement), ("if", .ifStatement), ("while", .whileStatement),
    ("do", .doStatement), ("return", .returnStatement)]

/-- The parts of a program that the grammar describes. -/
inductive Phrase
  | below (rule : Rule)
  | classVarDecs
  | subroutineDecs
  | varDecs
  | names
  | parameters
  /-- A node between two fixed words. -/
  | enclosed (left : String) (rule : Rule) (right : String)
  | index
  | alternative
  | plainCall
  | qualifiedCall
  | callSuffix
  | comma
  | operations

namespace Phrase

def condition : Phrase := enclosed "(" .expression ")"

def block : Phrase := enclosed openBrace .statements closeBrace

def arguments : Phrase := enclosed "(" .expressionList ")"

end Phrase

open Phrase

/-! ## Derivations -/

inductive Derives : Phrase → Reading
  -- class declarations
  | classDec {keyword name opening closing : Token} {tokens middle : List Token}
      {fields subroutines : Forest Token}
      (hkeyword : keyword.lexeme = "class") (hopening : opening.lexeme = openBrace)
      (hfields : Derives classVarDecs tokens fields middle)
      (hsubroutines : Derives subroutineDecs middle subroutines [closing])
      (hclosing : closing.lexeme = closeBrace) :
      Derives (below .classDec) (keyword :: name :: opening :: tokens)
        (.leaf keyword (.leaf name (.leaf opening
          (fields ++ (subroutines ++ .leaf closing .nil))))) []
  | noClassVarDec {tokens : List Token}
      (hnext : nextLexeme tokens ≠ some "static" ∧ nextLexeme tokens ≠ some "field") :
      Derives classVarDecs tokens .nil tokens
  | moreClassVarDecs {tokens middle rest : List Token} {first others : Forest Token}
      (hnext : nextLexeme tokens = some "static" ∨ nextLexeme tokens = some "field")
      (hfirst : Derives (below .classVarDec) tokens first middle)
      (hmore : Derives classVarDecs middle others rest) :
      Derives classVarDecs tokens (.node .classVarDec first others) rest
  | noSubroutineDec {tokens : List Token} (hnext : tokens.length ≤ 1) :
      Derives subroutineDecs tokens .nil tokens
  | moreSubroutineDecs {tokens middle rest : List Token} {first others : Forest Token}
      (hnext : 1 < tokens.length)
      (hfirst : Derives (below .subroutineDec) tokens first middle)
      (hmore : Derives subroutineDecs middle others rest) :
      Derives subroutineDecs tokens (.node .subroutineDec first others) rest
  | classVarDec {modifier type name semicolon : Token} {tokens rest : List Token}
      {others : Forest Token} (hnames : Derives names tokens others (semicolon :: rest))
      (hsemicolon : semicolon.lexeme = ";") :
      Derives (below .classVarDec) (modifier :: type :: name :: tokens)
        (.leaf modifier (.leaf type (.leaf name (others ++ .leaf semicolon .nil)))) rest
  | noName {tokens : List Token} (hnext : nextLexeme tokens ≠ some ",") :
      Derives names tokens .nil tokens
  | moreNames {separator name : Token} {tokens rest : List Token} {others : Forest Token}
      (hseparator : separator.lexeme = ",") (hmore : Derives names tokens others rest) :
      Derives names (separator :: name :: tokens) (.leaf separator (.leaf name others)) rest
  -- subroutines
  | subroutineDec {kind type name opening closing : Token} {tokens middle rest : List Token}
      {list body : Forest Token} (hopening : opening.lexeme = "(")
      (hlist : Derives (below .parameterList) tokens list (closing :: middle))
      (hclosing : closing.lexeme = ")")
      (hbody : Derives (below .subroutineBody) middle body rest) :
      Derives (below .subroutineDec) (kind :: type :: name :: opening :: tokens)
        (.leaf kind (.leaf type (.leaf name (.leaf opening (.node .parameterList list
          (.leaf closing (.node .subroutineBody body .nil))))))) rest
  | noParameter {tokens : List Token} (hnext : nextLexeme tokens = some ")") :
      Derives (below .parameterList) tokens .nil tokens
  | someParameters {type name : Token} {tokens rest : List Token} {others : Forest Token}
      (hnext : type.lexeme ≠ ")") (hmore : Derives parameters tokens others rest) :
      Derives (below .parameterList) (type :: name :: tokens)
        (.leaf type (.leaf name others)) rest
  | lastParameter {tokens : List Token} (hnext : nextLexeme tokens ≠ some ",") :
      Derives parameters tokens .nil tokens
  | moreParameters {separator type name : Token} {tokens rest : List Token}
      {others : Forest Token} (hseparator : separator.lexeme = ",")
      (hmore : Derives parameters tokens others rest) :
      Derives parameters (separator :: type :: name :: tokens)
        (.leaf separator (.leaf type (.leaf name others))) rest
  | subroutineBody {opening closing : Token} {tokens middle rest : List Token}
      {declared body : Forest Token} (hopening : opening.lexeme = openBrace)
      (hvariables : Derives varDecs tokens declared middle)
      (hbody : Derives (below .statements) middle body (closing :: rest))
      (hclosing : closing.lexeme = closeBrace) :
      Derives (below .subroutineBody) (opening :: tokens)
        (.leaf opening (declared ++ .node .statements body (.leaf closing .nil))) rest
  | noVarDec {tokens : List Token} (hnext : nextLexeme tokens ≠ some "var") :
      Derives varDecs tokens .nil tokens
  | moreVarDecs {tokens middle rest : List Token} {first others : Forest Token}
      (hnext : nextLexeme tokens = some "var")
      (hfirst : Derives (below .varDec) tokens first middle)
      (hmore : Derives varDecs middle others rest) :
      Derives varDecs tokens (.node .varDec first others) rest
  | varDec {keyword type name semicolon : Token} {tokens rest : List Token}
      {others : Forest Token} (hkeyword : keyword.lexeme = "var")
      (hnames : Derives names tokens others (semicolon :: rest))
      (hsemicolon : semicolon.lexeme = ";") :
      Derives (below .varDec) (keyword :: type :: name :: tokens)
        (.leaf keyword (.leaf type (.leaf name (others ++ .leaf semicolon .nil)))) rest
  -- statements
  | noStatement {tokens : List Token}
      (hnext : ∀ entry ∈ statementWords, nextLexeme tokens ≠ some entry.1) :
      Derives (below .statements) tokens .nil tokens
  | moreStatements {word : String} {rule : Rule} {tokens middle rest : List Token}
      {first others : Forest Token} (hentry : (word, rule) ∈ statementWords)
      (hnext : nextLexeme tokens = some word)
      (hfirst : Derives (below rule) tokens first middle)
      (hmore : Derives (below .statements) middle others rest) :
      Derives (below .statements) tokens (.node rule first others) rest
  | letStatement {keyword name equals semicolon : Token} {tokens middle rest : List Token}
      {position value : Forest Token} (hkeyword : keyword.lexeme = "let")
      (hindex : Derives index tokens position (equals :: middle))
      (hequals : equals.lexeme = "=")
      (hvalue : Derives (below .expression) middle value (semicolon :: rest))
      (hsemicolon : semicolon.lexeme = ";") :
      Derives (below .letStatement) (keyword :: name :: tokens)
        (.leaf keyword (.leaf name (position ++ .leaf equals
          (.node .expression value (.leaf semicolon .nil))))) rest
  | ifStatement {keyword : Token} {tokens middle after rest : List Token}
      {test body other : Forest Token} (hkeyword : keyword.lexeme = "if")
      (hcondition : Derives condition tokens test middle)
      (hblock : Derives block middle body after)
      (hother : Derives alternative after other rest) :
      Derives (below .ifStatement) (keyword :: tokens)
        (.leaf keyword (test ++ (body ++ other))) rest
  | noAlternative {tokens : List Token} (hnext : nextLexeme tokens ≠ some "else") :
      Derives alternative tokens .nil tokens
  | someAlternative {keyword : Token} {tokens rest : List Token} {body : Forest Token}
      (hkeyword : keyword.lexeme = "else") (hblock : Derives block tokens body rest) :
      Derives alternative (keyword :: tokens) (.leaf keyword body) rest
  | whileStatement {keyword : Token} {tokens middle rest : List Token}
      {test body : Forest Token} (hkeyword : keyword.lexeme = "while")
      (hcondition : Derives condition tokens test middle)
      (hblock : Derives block middle body rest) :
      Derives (below .whileStatement) (keyword :: tokens)
        (.leaf keyword (test ++ body)) rest
  | doStatement {keyword name semicolon : Token} {tokens rest : List Token}
      {call : Forest Token} (hkeyword : keyword.lexeme = "do")
      (hcall : Derives callSuffix tokens call (semicolon :: rest))
      (hsemicolon : semicolon.lexeme = ";") :
      Derives (below .doStatement) (keyword :: name :: tokens)
        (.leaf keyword (.leaf name (call ++ .leaf semicolon .nil))) rest
  | returnNothing {keyword semicolon : Token} {rest : List Token}
      (hkeyword : keyword.lexeme = "return") (hsemicolon : semicolon.lexeme = ";") :
      Derives (below .returnStatement) (keyword :: semicolon :: rest)
        (.leaf keyword (.leaf semicolon .nil)) rest
  | returnValue {keyword semicolon : Token} {tokens rest : List Token}
      {value : Forest Token} (hkeyword : keyword.lexeme = "return")
      (hnext : nextLexeme tokens ≠ some ";")
      (hvalue : Derives (below .expression) tokens value (semicolon :: rest))
      (hsemicolon : semicolon.lexeme = ";") :
      Derives (below .returnStatement) (keyword :: tokens)
        (.leaf keyword (.node .expression value (.leaf semicolon .nil))) rest
  -- parts of statements and terms
  | enclosed {left right : String} {rule : Rule} {opening closing : Token}
      {tokens rest : List Token} {children : Forest Token}
      (hopening : opening.lexeme = left)
      (hchildren : Derives (below rule) tokens children (closing :: rest))
      (hclosing : closing.lexeme = right) :
      Derives (enclosed left rule right) (opening :: tokens)
        (.leaf opening (.node rule children (.leaf closing .nil))) rest
  | noIndex {tokens : List Token} (hnext : nextLexeme tokens ≠ some "[") :
      Derives index tokens .nil tokens
  | someIndex {tokens rest : List Token} {position : Forest Token}
      (hposition : Derives (Phrase.enclosed "[" .expression "]") tokens position rest) :
      Derives index tokens position rest
  | callSuffix {tokens middle rest : List Token} {plain qualified : Forest Token}
      (hplain : Derives plainCall tokens plain middle)
      (hqualified : Derives qualifiedCall middle qualified rest) :
      Derives callSuffix tokens (plain ++ qualified) rest
  | noPlainCall {tokens : List Token} (hnext : nextLexeme tokens ≠ some "(") :
      Derives plainCall tokens .nil tokens
  | plainCall {tokens rest : List Token} {list : Forest Token}
      (hlist : Derives arguments tokens list rest) : Derives plainCall tokens list rest
  | noQualifiedCall {tokens : List Token} (hnext : nextLexeme tokens ≠ some ".") :
      Derives qualifiedCall tokens .nil tokens
  | qualifiedCall {dot name : Token} {tokens rest : List Token} {list : Forest Token}
      (hdot : dot.lexeme = ".") (hlist : Derives arguments tokens list rest) :
      Derives qualifiedCall (dot :: name :: tokens) (.leaf dot (.leaf name list)) rest
  -- expressions
  | noExpression {tokens : List Token} (hnext : nextLexeme tokens = some ")") :
      Derives (below .expressionList) tokens .nil tokens
  | moreExpressions {tokens middle after rest : List Token}
      {first separator others : Forest Token} (hnext : nextLexeme tokens ≠ some ")")
      (hfirst : Derives (below .expression) tokens first middle)
      (hseparator : Derives comma middle separator after)
      (hmore : Derives (below .expressionList) after others rest) :
      Derives (below .expressionList) tokens
        (.node .expression first (separator ++ others)) rest
  | noComma {tokens : List Token} (hnext : nextLexeme tokens ≠ some ",") :
      Derives comma tokens .nil tokens
  | someComma {separator : Token} {rest : List Token} (hseparator : separator.lexeme = ",") :
      Derives comma (separator :: rest) (.leaf separator .nil) rest
  | expression {tokens middle rest : List Token} {first others : Forest Token}
      (hfirst : Derives (below .term) tokens first middle)
      (hmore : Derives operations middle others rest) :
      Derives (below .expression) tokens (.node .term first others) rest
  | noOperation {tokens : List Token}
      (hnext : ∀ word ∈ binaryOperators, nextLexeme tokens ≠ some word) :
      Derives operations tokens .nil tokens
  | moreOperations {operator : Token} {tokens middle rest : List Token}
      {operand others : Forest Token} (hoperator : operator.lexeme ∈ binaryOperators)
      (hoperand : Derives (below .term) tokens operand middle)
      (hmore : Derives operations middle others rest) :
      Derives operations (operator :: tokens)
        (.leaf operator (.node .term operand others)) rest
  | parenthesized {tokens rest : List Token} {inner : Forest Token}
      (hinner : Derives condition tokens inner rest) :
      Derives (below .term) tokens inner rest
  | unary {operator : Token} {tokens rest : List Token} {operand : Forest Token}
      (hoperator : operator.lexeme ∈ unaryOperators)
      (hoperand : Derives (below .term) tokens operand rest) :
      Derives (below .term) (operator :: tokens)
        (.leaf operator (.node .term operand .nil)) rest
  | primary {first : Token} {tokens middle rest : List Token} {position call : Forest Token}
      (hparenthesis : first.lexeme ≠ "(") (hoperator : first.lexeme ∉ unaryOperators)
      (hindex : Derives index tokens position middle)
      (hcall : Derives Phrase.callSuffix middle call rest) :
      Derives (below .term) (first :: tokens) (.leaf first (position ++ call)) rest

/-! ## Guards and productions of phrases -/

theorem Guard.holds_next_iff {lexemes : List String} {tokens : List Token} :
    (Guard.next lexemes).holds tokens = true ↔
      ∃ word ∈ lexemes, nextLexeme tokens = some word := by
  cases tokens with
  | nil => simp [Guard.holds, nextLexeme]
  | cons token tail => simp [Guard.holds, nextLexeme]

theorem Guard.holds_notNext_iff {lexeme : String} {tokens : List Token} :
    (Guard.notNext lexeme).holds tokens = true ↔ nextLexeme tokens ≠ some lexeme := by
  cases tokens with
  | nil => simp [Guard.holds, nextLexeme]
  | cons token tail => simp [Guard.holds, nextLexeme]

theorem TokenKind.ofText_eq_keyword_iff {text : String} {keyword : Keyword} :
    TokenKind.ofText text = .keyword keyword ↔ Keyword.ofSpelling? text = some keyword := by
  unfold TokenKind.ofText
  cases Keyword.ofSpelling? text with
  | none =>
      simp only [reduceCtorEq, iff_false]
      intro hkind
      split at hkind
      next => contradiction
      next =>
        split at hkind
        next => contradiction
        next => split at hkind <;> contradiction
  | some found => simp

theorem Token.keyword?_eq_some_iff {token : Token} {keyword : Keyword} :
    token.keyword? = some keyword ↔ token.lexeme = keyword.spelling := by
  have hkind : token.keyword? = some keyword ↔ token.kind = .keyword keyword := by
    unfold Token.keyword?
    cases token.kind <;> simp
  rw [hkind, Token.kind, TokenKind.ofText_eq_keyword_iff]
  constructor
  · intro hspelling
    exact (Keyword.spelling_of_ofSpelling? hspelling).symm
  · intro hlexeme
    rw [hlexeme, Keyword.ofSpelling?_spelling]

theorem mem_statementWords_iff {word : String} {rule : Rule} :
    (word, rule) ∈ statementWords ↔
      ∃ keyword : Keyword, keyword.spelling = word ∧ keyword.statementRule? = some rule := by
  constructor
  · intro hentry
    have hall : ∀ entry ∈ statementWords, ∃ keyword ∈ Keyword.all,
        keyword.spelling = entry.1 ∧ keyword.statementRule? = some entry.2 := by decide
    obtain ⟨keyword, _, hkeyword⟩ := hall _ hentry
    exact ⟨keyword, hkeyword⟩
  · rintro ⟨keyword, rfl, hrule⟩
    cases keyword <;>
      simp_all [Keyword.statementRule?, statementWords, Keyword.spelling]

theorem statementRule?_eq_some_iff {tokens : List Token} {rule : Rule} :
    statementRule? tokens = some rule ↔
      ∃ word, (word, rule) ∈ statementWords ∧ nextLexeme tokens = some word := by
  unfold statementRule? nextLexeme
  cases tokens with
  | nil => simp
  | cons token tail =>
      simp only [List.head?_cons, Option.bind_some, Option.map_some, Option.some.injEq,
        mem_statementWords_iff, Option.bind_eq_some_iff, Token.keyword?_eq_some_iff]
      constructor
      · rintro ⟨keyword, hword, hrule⟩
        exact ⟨_, ⟨keyword, rfl, hrule⟩, hword⟩
      · rintro ⟨_, ⟨keyword, rfl, hrule⟩, hword⟩
        exact ⟨keyword, hword, hrule⟩

theorem Guard.holds_statementNext_iff {tokens : List Token} :
    Guard.statementNext.holds tokens = true ↔
      ∃ entry ∈ statementWords, nextLexeme tokens = some entry.1 := by
  have hsome : Guard.statementNext.holds tokens = (statementRule? tokens).isSome :=
    (isSome_statementRule? tokens).symm
  rw [hsome, Option.isSome_iff_exists]
  constructor
  · rintro ⟨rule, hrule⟩
    obtain ⟨word, hentry, hword⟩ := statementRule?_eq_some_iff.mp hrule
    exact ⟨(word, rule), hentry, hword⟩
  · rintro ⟨entry, hentry, hword⟩
    exact ⟨entry.2, statementRule?_eq_some_iff.mpr ⟨entry.1, hentry, hword⟩⟩

def Phrase.production : Phrase → Production
  | below r => r.production
  | classVarDecs => .repeated (.next ["static", "field"]) (.rule .classVarDec .done) .done
  | subroutineDecs => .repeated .beforeLast (.rule .subroutineDec .done) .done
  | varDecs => .repeated (.next ["var"]) (.rule .varDec .done) .done
  | names => .moreNames .done
  | parameters => .repeated (.next [","]) (.word "," (.any (.any .done))) .done
  | enclosed left r right => .word left (.rule r (.word right .done))
  | index => .optionalIndex .done
  | alternative => .optional (.next ["else"]) (.word "else" (.block .done)) .done
  | plainCall => .optional (.next ["("]) (.arguments .done) .done
  | qualifiedCall => .optional (.next ["."]) (.word "." (.any (.arguments .done))) .done
  | callSuffix => .callSuffix .done
  | comma => .optional (.next [","]) (.word "," .done) .done
  | operations => .repeated (.next binaryOperators) (.any (.rule .term .done)) .done

/-! ## What productions read is derived -/

section Soundness

variable {tokens rest : List Token} {forest : Forest Token}

def derivedBelow : Rule → Reading :=
  fun r => Derives (below r)

theorem derives_of_repeats {phrase : Phrase} {guard : Guard} {r : Rule}
    (hstop : ∀ tokens, guard.holds tokens = false → Derives phrase tokens .nil tokens)
    (hmore : ∀ tokens middle rest first others, guard.holds tokens = true →
      Derives (below r) tokens first middle → Derives phrase middle others rest →
        Derives phrase tokens (.node r first others) rest)
    (hrepeats : Repeats guard ((Production.rule r .done).Reads derivedBelow)
      tokens forest rest) :
    Derives phrase tokens forest rest := by
  induction hrepeats with
  | stop hguard => exact hstop _ hguard
  | again hguard hbody _ ih =>
      obtain ⟨first, _, _, hfirst, ⟨rfl, rfl⟩, rfl⟩ := hbody
      exact hmore _ _ _ _ _ hguard hfirst ih

theorem derives_classVarDecs_of_reads
    (hreads : classVarDecs.production.Reads derivedBelow tokens forest rest) :
    Derives classVarDecs tokens forest rest := by
  apply derives_of_repeats ?_ ?_ (Production.reads_repeated_done_iff.mp hreads)
  · intro tokens hguard
    have hnext := mt Guard.holds_next_iff.mpr (by simpa using hguard)
    exact .noClassVarDec (by simpa using hnext)
  · intro tokens middle rest first others hguard hfirst hmore
    exact .moreClassVarDecs (by simpa using Guard.holds_next_iff.mp hguard) hfirst hmore

theorem derives_subroutineDecs_of_reads
    (hreads : subroutineDecs.production.Reads derivedBelow tokens forest rest) :
    Derives subroutineDecs tokens forest rest := by
  apply derives_of_repeats ?_ ?_ (Production.reads_repeated_done_iff.mp hreads)
  · intro tokens hguard
    exact .noSubroutineDec (by simpa [Guard.holds] using hguard)
  · intro tokens middle rest first others hguard hfirst hmore
    exact .moreSubroutineDecs (by simpa [Guard.holds] using hguard) hfirst hmore

theorem derives_varDecs_of_reads
    (hreads : varDecs.production.Reads derivedBelow tokens forest rest) :
    Derives varDecs tokens forest rest := by
  apply derives_of_repeats ?_ ?_ (Production.reads_repeated_done_iff.mp hreads)
  · intro tokens hguard
    have hnext := mt Guard.holds_next_iff.mpr (by simpa using hguard)
    exact .noVarDec (by simpa using hnext)
  · intro tokens middle rest first others hguard hfirst hmore
    exact .moreVarDecs (by simpa using Guard.holds_next_iff.mp hguard) hfirst hmore

theorem derives_names_of_reads
    (hreads : names.production.Reads derivedBelow tokens forest rest) :
    Derives names tokens forest rest := by
  have hrepeats := Production.reads_repeated_done_iff.mp hreads
  induction hrepeats with
  | stop hguard =>
      have hnext := mt Guard.holds_next_iff.mpr (by simpa using hguard)
      exact .noName (by simpa using hnext)
  | again _ hbody hmore ih =>
      obtain ⟨separator, _, _, rfl, hseparator, ⟨name, _, _, rfl, ⟨rfl, rfl⟩, rfl⟩, rfl⟩ := hbody
      exact .moreNames hseparator (ih (Production.reads_repeated_done_iff.mpr hmore))

theorem derives_parameters_of_reads
    (hreads : parameters.production.Reads derivedBelow tokens forest rest) :
    Derives parameters tokens forest rest := by
  have hrepeats := Production.reads_repeated_done_iff.mp hreads
  induction hrepeats with
  | stop hguard =>
      have hnext := mt Guard.holds_next_iff.mpr (by simpa using hguard)
      exact .lastParameter (by simpa using hnext)
  | again _ hbody hmore ih =>
      obtain ⟨separator, _, _, rfl, hseparator, ⟨type, _, _, rfl,
        ⟨name, _, _, rfl, ⟨rfl, rfl⟩, rfl⟩, rfl⟩, rfl⟩ := hbody
      exact .moreParameters hseparator (ih (Production.reads_repeated_done_iff.mpr hmore))

theorem derives_operations_of_reads
    (hreads : operations.production.Reads derivedBelow tokens forest rest) :
    Derives operations tokens forest rest := by
  have hrepeats := Production.reads_repeated_done_iff.mp hreads
  induction hrepeats with
  | stop hguard =>
      have hnext := mt Guard.holds_next_iff.mpr (by simpa using hguard)
      exact .noOperation (by simpa using hnext)
  | again hguard hbody hmore ih =>
      obtain ⟨operator, _, _, rfl, ⟨operand, _, _, hoperand, ⟨rfl, rfl⟩, rfl⟩, rfl⟩ := hbody
      obtain ⟨word, hword, hoperator⟩ := Guard.holds_next_iff.mp hguard
      simp only [nextLexeme, List.head?_cons, Option.map_some, Option.some.injEq] at hoperator
      exact .moreOperations (hoperator ▸ hword) hoperand
        (ih (Production.reads_repeated_done_iff.mpr hmore))

theorem derives_enclosed_of_reads {left right : String} {r : Rule}
    (hreads : (enclosed left r right).production.Reads derivedBelow tokens forest rest) :
    Derives (enclosed left r right) tokens forest rest := by
  obtain ⟨opening, _, _, rfl, hopening, ⟨children, _, _, hchildren,
    ⟨closing, _, _, rfl, hclosing, ⟨rfl, rfl⟩, rfl⟩, rfl⟩, rfl⟩ := hreads
  exact .enclosed hopening hchildren hclosing

theorem derives_of_optional {phrase : Phrase} {lexeme : String} {body : Production}
    (hskip : nextLexeme tokens ≠ some lexeme → Derives phrase tokens .nil tokens)
    (htake : body.Reads derivedBelow tokens forest rest → Derives phrase tokens forest rest)
    (hreads : (Production.optional (.next [lexeme]) body .done).Reads derivedBelow
      tokens forest rest) :
    Derives phrase tokens forest rest := by
  by_cases hguard : (Guard.next [lexeme]).holds tokens = true
  · exact htake ((Production.reads_optional_of_holds hguard).mp hreads)
  · obtain ⟨rfl, rfl⟩ := (Production.reads_optional_of_not_holds hguard).mp hreads
    have hnext := mt Guard.holds_next_iff.mpr hguard
    exact hskip (by simpa using hnext)

theorem derives_index_of_reads
    (hreads : index.production.Reads derivedBelow tokens forest rest) :
    Derives index tokens forest rest := by
  apply derives_of_optional .noIndex ?_ hreads
  intro hbody
  exact .someIndex (derives_enclosed_of_reads hbody)

theorem derives_alternative_of_reads
    (hreads : alternative.production.Reads derivedBelow tokens forest rest) :
    Derives alternative tokens forest rest := by
  apply derives_of_optional .noAlternative ?_ hreads
  rintro ⟨keyword, _, _, rfl, hkeyword, hblock, rfl⟩
  exact .someAlternative hkeyword (derives_enclosed_of_reads hblock)

theorem derives_callSuffix_of_reads
    (hreads : Phrase.callSuffix.production.Reads derivedBelow tokens forest rest) :
    Derives Phrase.callSuffix tokens forest rest := by
  obtain ⟨plain, middle, qualified, hplain, hqualified, rfl⟩ :=
    (Production.reads_followedBy_iff (p := plainCall.production)).mp hreads
  have hfirst : Derives plainCall tokens plain middle := by
    apply derives_of_optional .noPlainCall ?_ hplain
    intro hlist
    exact .plainCall (derives_enclosed_of_reads hlist)
  have hsecond : Derives qualifiedCall middle qualified rest := by
    apply derives_of_optional .noQualifiedCall ?_ hqualified
    rintro ⟨dot, _, _, rfl, hdot, ⟨name, _, _, rfl, hlist, rfl⟩, rfl⟩
    exact .qualifiedCall hdot (derives_enclosed_of_reads hlist)
  exact .callSuffix hfirst hsecond

theorem derives_comma_of_reads
    (hreads : comma.production.Reads derivedBelow tokens forest rest) :
    Derives comma tokens forest rest := by
  apply derives_of_optional .noComma ?_ hreads
  rintro ⟨separator, _, _, rfl, hseparator, ⟨rfl, rfl⟩, rfl⟩
  exact .someComma hseparator

theorem derives_statements_of_reads
    (hreads : Rule.statements.production.Reads derivedBelow tokens forest rest) :
    Derives (below .statements) tokens forest rest := by
  have hrepeats := Production.reads_repeated_done_iff.mp hreads
  induction hrepeats with
  | stop hguard =>
      have hnext := mt Guard.holds_statementNext_iff.mpr (by simpa using hguard)
      exact .noStatement fun entry hentry hword => hnext ⟨entry, hentry, hword⟩
  | again _ hbody hmore ih =>
      obtain ⟨rule, first, _, _, hrule, hfirst, ⟨rfl, rfl⟩, rfl⟩ := hbody
      obtain ⟨word, hentry, hword⟩ := statementRule?_eq_some_iff.mp hrule
      exact .moreStatements hentry hword hfirst
        (ih (Production.reads_repeated_done_iff.mpr hmore))

theorem derives_expressionList_of_reads
    (hreads : Rule.expressionList.production.Reads derivedBelow tokens forest rest) :
    Derives (below .expressionList) tokens forest rest := by
  have hrepeats := Production.reads_repeated_done_iff.mp hreads
  induction hrepeats with
  | stop hguard =>
      have hnext := mt Guard.holds_notNext_iff.mpr (by simpa using hguard)
      exact .noExpression (by simpa using hnext)
  | again hguard hbody hmore ih =>
      obtain ⟨first, _, separator, hfirst, hseparator, rfl⟩ := hbody
      exact .moreExpressions (Guard.holds_notNext_iff.mp hguard) hfirst
        (derives_comma_of_reads hseparator)
        (ih (Production.reads_repeated_done_iff.mpr hmore))

theorem derives_parameterList_of_reads
    (hreads : Rule.parameterList.production.Reads derivedBelow tokens forest rest) :
    Derives (below .parameterList) tokens forest rest := by
  by_cases hguard : (Guard.notNext ")").holds tokens = true
  · simp only [Rule.production, Production.Reads, if_pos hguard] at hreads
    obtain ⟨_, _, others, ⟨type, _, _, rfl, ⟨name, _, _, rfl, ⟨rfl, rfl⟩, rfl⟩, rfl⟩,
      hothers, rfl⟩ := hreads
    have hnext := Guard.holds_notNext_iff.mp hguard
    exact .someParameters (by simpa [nextLexeme] using hnext)
      (derives_parameters_of_reads hothers)
  · have hnext : nextLexeme tokens = some ")" := by
      simpa using mt Guard.holds_notNext_iff.mpr hguard
    have hstop : (Guard.next [","]).holds tokens = false := by
      rw [Bool.eq_false_iff]
      intro hcomma
      simpa [hnext] using Guard.holds_next_iff.mp hcomma
    have hrepeats := Production.reads_repeated_done_iff.mp
      ((Production.reads_optional_of_not_holds hguard).mp hreads)
    cases hrepeats with
    | stop _ => exact .noParameter hnext
    | again hcomma _ _ => simp [hstop] at hcomma

theorem derives_returnStatement_of_reads
    (hreads : Rule.returnStatement.production.Reads derivedBelow tokens forest rest) :
    Derives (below .returnStatement) tokens forest rest := by
  obtain ⟨keyword, tail, _, rfl, hkeyword, hvalue, rfl⟩ := hreads
  by_cases hguard : (Guard.notNext ";").holds tail = true
  · simp only [Production.Reads, if_pos hguard] at hvalue
    obtain ⟨_, _, _, ⟨value, _, _, hvalue, ⟨rfl, rfl⟩, rfl⟩,
      ⟨semicolon, _, _, rfl, hsemicolon, ⟨rfl, rfl⟩, rfl⟩, rfl⟩ := hvalue
    exact .returnValue hkeyword (Guard.holds_notNext_iff.mp hguard) hvalue hsemicolon
  · obtain ⟨semicolon, _, _, rfl, hsemicolon, ⟨rfl, rfl⟩, rfl⟩ :=
      (Production.reads_optional_of_not_holds hguard).mp hvalue
    exact .returnNothing hkeyword hsemicolon

theorem derives_term_of_reads
    (hreads : Rule.term.production.Reads derivedBelow tokens forest rest) :
    Derives (below .term) tokens forest rest := by
  by_cases hparenthesis : (Guard.next ["("]).holds tokens = true
  · simp only [Rule.production, Production.Reads, if_pos hparenthesis] at hreads
    exact .parenthesized (derives_enclosed_of_reads hreads)
  · simp only [Rule.production, Production.Reads, if_neg hparenthesis] at hreads
    have hfirst := mt Guard.holds_next_iff.mpr hparenthesis
    by_cases hunary : (Guard.next unaryOperators).holds tokens = true
    · rw [if_pos hunary] at hreads
      obtain ⟨operator, _, _, rfl, ⟨operand, _, _, hoperand, ⟨rfl, rfl⟩, rfl⟩, rfl⟩ := hreads
      obtain ⟨word, hword, hoperator⟩ := Guard.holds_next_iff.mp hunary
      simp only [nextLexeme, List.head?_cons, Option.map_some, Option.some.injEq] at hoperator
      exact .unary (hoperator ▸ hword) hoperand
    · rw [if_neg hunary] at hreads
      obtain ⟨first, tail, _, rfl, hsuffix, rfl⟩ := hreads
      obtain ⟨position, _, call, hindex, hcall, rfl⟩ :=
        (Production.reads_followedBy_iff (p := index.production)
          (q := Phrase.callSuffix.production)).mp hsuffix
      have hoperator := mt Guard.holds_next_iff.mpr hunary
      simp only [nextLexeme, List.head?_cons, Option.map_some, Option.some.injEq,
        exists_eq_right'] at hoperator
      exact .primary (by simpa [nextLexeme] using hfirst) hoperator
        (derives_index_of_reads hindex) (derives_callSuffix_of_reads hcall)

theorem derivedBelow_of_reads {r : Rule}
    (hreads : r.production.Reads derivedBelow tokens forest rest) :
    derivedBelow r tokens forest rest := by
  cases r with
  | classDec =>
      obtain ⟨keyword, _, _, rfl, hkeyword, ⟨name, _, _, rfl, ⟨opening, _, _, rfl, hopening,
        hmembers, rfl⟩, rfl⟩, rfl⟩ := hreads
      obtain ⟨fields, _, _, hfields, hmore, rfl⟩ :=
        (Production.reads_followedBy_iff (p := classVarDecs.production)).mp hmembers
      obtain ⟨subroutines, _, _, hsubroutines, ⟨closing, _, _, rfl, hclosing, ⟨rfl, rfl⟩, rfl⟩,
        rfl⟩ := (Production.reads_followedBy_iff (p := subroutineDecs.production)).mp hmore
      have hend : rest = [] := by
        have hlast := (Production.reads_repeated_done_iff.mp hsubroutines).holds_eq_false
        simpa [Guard.holds] using hlast
      subst hend
      exact .classDec hkeyword hopening (derives_classVarDecs_of_reads hfields)
        (derives_subroutineDecs_of_reads hsubroutines) hclosing
  | classVarDec =>
      obtain ⟨modifier, _, _, rfl, ⟨type, _, _, rfl, ⟨name, _, _, rfl, hmore, rfl⟩, rfl⟩, rfl⟩ :=
        hreads
      obtain ⟨others, _, _, hothers, ⟨semicolon, _, _, rfl, hsemicolon, ⟨rfl, rfl⟩, rfl⟩, rfl⟩ :=
        (Production.reads_followedBy_iff (p := names.production)).mp hmore
      exact .classVarDec (derives_names_of_reads hothers) hsemicolon
  | subroutineDec =>
      obtain ⟨kind, _, _, rfl, ⟨type, _, _, rfl, ⟨name, _, _, rfl, ⟨opening, _, _, rfl, hopening,
        ⟨list, _, _, hlist, ⟨closing, _, _, rfl, hclosing, ⟨body, _, _, hbody, ⟨rfl, rfl⟩, rfl⟩,
          rfl⟩, rfl⟩, rfl⟩, rfl⟩, rfl⟩, rfl⟩ := hreads
      exact .subroutineDec hopening hlist hclosing hbody
  | parameterList => exact derives_parameterList_of_reads hreads
  | subroutineBody =>
      obtain ⟨opening, _, _, rfl, hopening, hmore, rfl⟩ := hreads
      obtain ⟨declared, _, _, hvariables, ⟨body, _, _, hbody,
        ⟨closing, _, _, rfl, hclosing, ⟨rfl, rfl⟩, rfl⟩, rfl⟩, rfl⟩ :=
        (Production.reads_followedBy_iff (p := varDecs.production)).mp hmore
      exact .subroutineBody hopening (derives_varDecs_of_reads hvariables) hbody hclosing
  | varDec =>
      obtain ⟨keyword, _, _, rfl, hkeyword, ⟨type, _, _, rfl, ⟨name, _, _, rfl, hmore, rfl⟩,
        rfl⟩, rfl⟩ := hreads
      obtain ⟨others, _, _, hothers, ⟨semicolon, _, _, rfl, hsemicolon, ⟨rfl, rfl⟩, rfl⟩, rfl⟩ :=
        (Production.reads_followedBy_iff (p := names.production)).mp hmore
      exact .varDec hkeyword (derives_names_of_reads hothers) hsemicolon
  | statements => exact derives_statements_of_reads hreads
  | letStatement =>
      obtain ⟨keyword, _, _, rfl, hkeyword, ⟨name, _, _, rfl, hmore, rfl⟩, rfl⟩ := hreads
      obtain ⟨position, _, _, hindex, ⟨equals, _, _, rfl, hequals, ⟨value, _, _, hvalue,
        ⟨semicolon, _, _, rfl, hsemicolon, ⟨rfl, rfl⟩, rfl⟩, rfl⟩, rfl⟩, rfl⟩ :=
        (Production.reads_followedBy_iff (p := index.production)).mp hmore
      exact .letStatement hkeyword (derives_index_of_reads hindex) hequals hvalue hsemicolon
  | ifStatement =>
      obtain ⟨keyword, _, _, rfl, hkeyword, hmore, rfl⟩ := hreads
      obtain ⟨test, _, _, hcondition, hbody, rfl⟩ :=
        (Production.reads_followedBy_iff (p := condition.production)).mp hmore
      obtain ⟨body, _, other, hblock, hother, rfl⟩ :=
        (Production.reads_followedBy_iff (p := block.production)
          (q := alternative.production)).mp hbody
      exact .ifStatement hkeyword (derives_enclosed_of_reads hcondition)
        (derives_enclosed_of_reads hblock) (derives_alternative_of_reads hother)
  | whileStatement =>
      obtain ⟨keyword, _, _, rfl, hkeyword, hmore, rfl⟩ := hreads
      obtain ⟨test, _, body, hcondition, hblock, rfl⟩ :=
        (Production.reads_followedBy_iff (p := condition.production)
          (q := block.production)).mp hmore
      exact .whileStatement hkeyword (derives_enclosed_of_reads hcondition)
        (derives_enclosed_of_reads hblock)
  | doStatement =>
      obtain ⟨keyword, _, _, rfl, hkeyword, ⟨name, _, _, rfl, hmore, rfl⟩, rfl⟩ := hreads
      obtain ⟨call, _, _, hcall, ⟨semicolon, _, _, rfl, hsemicolon, ⟨rfl, rfl⟩, rfl⟩, rfl⟩ :=
        (Production.reads_followedBy_iff (p := Phrase.callSuffix.production)).mp hmore
      exact .doStatement hkeyword (derives_callSuffix_of_reads hcall) hsemicolon
  | returnStatement => exact derives_returnStatement_of_reads hreads
  | expression =>
      obtain ⟨first, _, others, hfirst, hmore, rfl⟩ := hreads
      exact .expression hfirst (derives_operations_of_reads hmore)
  | term => exact derives_term_of_reads hreads
  | expressionList => exact derives_expressionList_of_reads hreads

end Soundness

/-! ## What is derived is read -/

section Completeness

open Production

theorem holds_next_eq_false {lexemes : List String} {tokens : List Token}
    (hnext : ∀ word ∈ lexemes, nextLexeme tokens ≠ some word) :
    (Guard.next lexemes).holds tokens = false := by
  rw [Bool.eq_false_iff]
  intro hguard
  obtain ⟨word, hword, hlexeme⟩ := Guard.holds_next_iff.mp hguard
  exact hnext word hword hlexeme

theorem holds_next_of_lexeme {lexemes : List String} {token : Token} {tokens : List Token}
    (hlexeme : token.lexeme ∈ lexemes) : (Guard.next lexemes).holds (token :: tokens) = true :=
  Guard.holds_next_iff.mpr ⟨token.lexeme, hlexeme, rfl⟩

theorem holds_notNext_eq_false {lexeme : String} {tokens : List Token}
    (hnext : nextLexeme tokens = some lexeme) :
    (Guard.notNext lexeme).holds tokens = false := by
  rw [Bool.eq_false_iff]
  intro hguard
  exact Guard.holds_notNext_iff.mp hguard hnext

theorem reads_repeated_stop {guard : Guard} {body : Production} {tokens : List Token}
    (hguard : guard.holds tokens = false) :
    (repeated guard body done).Reads Rule.Parses tokens .nil tokens :=
  reads_repeated_done_iff.mpr (.stop hguard)

theorem reads_repeated_again {guard : Guard} {body : Production}
    {tokens middle rest : List Token} {left right : Forest Token}
    (hguard : guard.holds tokens = true) (hbody : body.Reads Rule.Parses tokens left middle)
    (hmore : (repeated guard body done).Reads Rule.Parses middle right rest) :
    (repeated guard body done).Reads Rule.Parses tokens (left ++ right) rest :=
  reads_repeated_done_iff.mpr (.again hguard hbody (reads_repeated_done_iff.mp hmore))

theorem reads_optional_skip {guard : Guard} {body : Production} {tokens : List Token}
    (hguard : guard.holds tokens = false) :
    (optional guard body done).Reads Rule.Parses tokens .nil tokens :=
  (reads_optional_of_not_holds (by simp [hguard])).mpr ⟨rfl, rfl⟩

theorem reads_optional_take {guard : Guard} {body after : Production}
    {tokens middle rest : List Token} {left right : Forest Token}
    (hguard : guard.holds tokens = true) (hbody : body.Reads Rule.Parses tokens left middle)
    (hafter : after.Reads Rule.Parses middle right rest) :
    (optional guard body after).Reads Rule.Parses tokens (left ++ right) rest := by
  unfold Reads
  rw [if_pos hguard]
  exact ⟨left, middle, right, hbody, hafter, rfl⟩

theorem reads_done {tokens : List Token} :
    done.Reads Rule.Parses tokens .nil tokens :=
  ⟨rfl, rfl⟩

theorem reads_word {token : Token} {lexeme : String} {after : Production}
    {tokens rest : List Token} {forest : Forest Token} (hlexeme : token.lexeme = lexeme)
    (hafter : after.Reads Rule.Parses tokens forest rest) :
    (word lexeme after).Reads Rule.Parses (token :: tokens) (.leaf token forest) rest :=
  ⟨token, tokens, forest, rfl, hlexeme, hafter, rfl⟩

theorem reads_any {token : Token} {after : Production}
    {tokens rest : List Token} {forest : Forest Token}
    (hafter : after.Reads Rule.Parses tokens forest rest) :
    (any after).Reads Rule.Parses (token :: tokens) (.leaf token forest) rest :=
  ⟨token, tokens, forest, rfl, hafter, rfl⟩

theorem reads_rule {r : Rule} {after : Production} {tokens middle rest : List Token}
    {children forest : Forest Token}
    (hchildren : (below r).production.Reads Rule.Parses tokens children middle)
    (hafter : after.Reads Rule.Parses middle forest rest) :
    (rule r after).Reads Rule.Parses tokens (.node r children forest) rest :=
  ⟨children, middle, forest, Rule.parses_iff_reads.mpr hchildren, hafter, rfl⟩

theorem reads_statement {r : Rule} {after : Production} {tokens middle rest : List Token}
    {children forest : Forest Token} (hrule : statementRule? tokens = some r)
    (hchildren : (below r).production.Reads Rule.Parses tokens children middle)
    (hafter : after.Reads Rule.Parses middle forest rest) :
    (statement after).Reads Rule.Parses tokens (.node r children forest) rest :=
  ⟨r, children, middle, forest, hrule, Rule.parses_iff_reads.mpr hchildren, hafter, rfl⟩

theorem reads_choice_yes {guard : Guard} {yes no : Production} {tokens rest : List Token}
    {forest : Forest Token} (hguard : guard.holds tokens = true)
    (hyes : yes.Reads Rule.Parses tokens forest rest) :
    (choice guard yes no).Reads Rule.Parses tokens forest rest := by
  unfold Reads
  rw [if_pos hguard]
  exact hyes

theorem reads_choice_no {guard : Guard} {yes no : Production} {tokens rest : List Token}
    {forest : Forest Token} (hguard : guard.holds tokens = false)
    (hno : no.Reads Rule.Parses tokens forest rest) :
    (choice guard yes no).Reads Rule.Parses tokens forest rest := by
  unfold Reads
  rw [if_neg (by simp [hguard])]
  exact hno

theorem holds_next_of_enclosed {left right : String} {r : Rule} {tokens rest : List Token}
    {forest : Forest Token}
    (hreads : (enclosed left r right).production.Reads Rule.Parses tokens forest rest) :
    (Guard.next [left]).holds tokens = true := by
  obtain ⟨opening, _, _, rfl, hopening, _⟩ := hreads
  exact holds_next_of_lexeme (by simp [hopening])

theorem reads_of_derives {phrase : Phrase} {tokens rest : List Token} {forest : Forest Token}
    (hderives : Derives phrase tokens forest rest) :
    phrase.production.Reads Rule.Parses tokens forest rest := by
  induction hderives with
  | classDec hkeyword hopening _ _ hclosing ihfields ihsubroutines =>
      refine reads_word hkeyword (reads_any (reads_word hopening ?_))
      apply (reads_followedBy_iff (p := classVarDecs.production)).mpr
      refine ⟨_, _, _, ihfields, ?_, rfl⟩
      apply (reads_followedBy_iff (p := subroutineDecs.production)).mpr
      exact ⟨_, _, _, ihsubroutines, reads_word hclosing reads_done, rfl⟩
  | noClassVarDec hnext => exact reads_repeated_stop (holds_next_eq_false (by simpa using hnext))
  | moreClassVarDecs hnext _ _ ihfirst ihmore =>
      exact reads_repeated_again (Guard.holds_next_iff.mpr (by simpa using hnext))
        (reads_rule ihfirst reads_done) ihmore
  | noSubroutineDec hnext =>
      exact reads_repeated_stop (by simpa [Guard.holds] using hnext)
  | moreSubroutineDecs hnext _ _ ihfirst ihmore =>
      exact reads_repeated_again (by simpa [Guard.holds] using hnext)
        (reads_rule ihfirst reads_done) ihmore
  | classVarDec _ hsemicolon ihnames =>
      refine reads_any (reads_any (reads_any ?_))
      apply (reads_followedBy_iff (p := names.production)).mpr
      exact ⟨_, _, _, ihnames, reads_word hsemicolon reads_done, rfl⟩
  | noName hnext => exact reads_repeated_stop (holds_next_eq_false (by simpa using hnext))
  | moreNames hseparator _ ihmore =>
      exact reads_repeated_again (holds_next_of_lexeme (by simp [hseparator]))
        (reads_word hseparator (reads_any reads_done)) ihmore
  | subroutineDec hopening _ hclosing _ ihlist ihbody =>
      exact reads_any (reads_any (reads_any (reads_word hopening
        (reads_rule ihlist (reads_word hclosing (reads_rule ihbody reads_done))))))
  | noParameter hnext =>
      apply (reads_optional_of_not_holds (by simp [holds_notNext_eq_false hnext])).mpr
      exact reads_repeated_stop (holds_next_eq_false (by simp [hnext]))
  | someParameters hnext _ ihmore =>
      exact reads_optional_take (Guard.holds_notNext_iff.mpr (by simpa [nextLexeme] using hnext))
        (reads_any (reads_any reads_done)) ihmore
  | lastParameter hnext =>
      exact reads_repeated_stop (holds_next_eq_false (by simpa using hnext))
  | moreParameters hseparator _ ihmore =>
      exact reads_repeated_again (holds_next_of_lexeme (by simp [hseparator]))
        (reads_word hseparator (reads_any (reads_any reads_done))) ihmore
  | subroutineBody hopening _ _ hclosing ihvariables ihbody =>
      refine reads_word hopening ?_
      apply (reads_followedBy_iff (p := varDecs.production)).mpr
      exact ⟨_, _, _, ihvariables, reads_rule ihbody (reads_word hclosing reads_done), rfl⟩
  | noVarDec hnext => exact reads_repeated_stop (holds_next_eq_false (by simpa using hnext))
  | moreVarDecs hnext _ _ ihfirst ihmore =>
      exact reads_repeated_again (Guard.holds_next_iff.mpr (by simpa using hnext))
        (reads_rule ihfirst reads_done) ihmore
  | varDec hkeyword _ hsemicolon ihnames =>
      refine reads_word hkeyword (reads_any (reads_any ?_))
      apply (reads_followedBy_iff (p := names.production)).mpr
      exact ⟨_, _, _, ihnames, reads_word hsemicolon reads_done, rfl⟩
  | noStatement hnext =>
      apply reads_repeated_stop
      rw [Bool.eq_false_iff]
      intro hguard
      obtain ⟨entry, hentry, hword⟩ := Guard.holds_statementNext_iff.mp hguard
      exact hnext entry hentry hword
  | moreStatements hentry hnext _ _ ihfirst ihmore =>
      have hguard := Guard.holds_statementNext_iff.mpr ⟨_, hentry, hnext⟩
      have hrule := statementRule?_eq_some_iff.mpr ⟨_, hentry, hnext⟩
      exact reads_repeated_again hguard (reads_statement hrule ihfirst reads_done) ihmore
  | letStatement hkeyword _ hequals _ hsemicolon ihindex ihvalue =>
      refine reads_word hkeyword (reads_any ?_)
      apply (reads_followedBy_iff (p := index.production)).mpr
      exact ⟨_, _, _, ihindex, reads_word hequals
        (reads_rule ihvalue (reads_word hsemicolon reads_done)), rfl⟩
  | ifStatement hkeyword _ _ _ ihcondition ihblock ihother =>
      refine reads_word hkeyword ?_
      apply (reads_followedBy_iff (p := condition.production)).mpr
      refine ⟨_, _, _, ihcondition, ?_, rfl⟩
      apply (reads_followedBy_iff (p := block.production) (q := alternative.production)).mpr
      exact ⟨_, _, _, ihblock, ihother, rfl⟩
  | noAlternative hnext => exact reads_optional_skip (holds_next_eq_false (by simpa using hnext))
  | someAlternative hkeyword _ ihblock =>
      apply (reads_optional_of_holds (holds_next_of_lexeme (by simp [hkeyword]))).mpr
      exact reads_word hkeyword ihblock
  | whileStatement hkeyword _ _ ihcondition ihblock =>
      refine reads_word hkeyword ?_
      apply (reads_followedBy_iff (p := condition.production) (q := block.production)).mpr
      exact ⟨_, _, _, ihcondition, ihblock, rfl⟩
  | doStatement hkeyword _ hsemicolon ihcall =>
      refine reads_word hkeyword (reads_any ?_)
      apply (reads_followedBy_iff (p := Phrase.callSuffix.production)).mpr
      exact ⟨_, _, _, ihcall, reads_word hsemicolon reads_done, rfl⟩
  | returnNothing hkeyword hsemicolon =>
      refine reads_word hkeyword ?_
      apply (reads_optional_of_not_holds ?_).mpr (reads_word hsemicolon reads_done)
      rw [ne_eq, Guard.holds_notNext_iff]
      simpa [nextLexeme] using hsemicolon
  | returnValue hkeyword hnext _ hsemicolon ihvalue =>
      exact reads_word hkeyword (reads_optional_take (Guard.holds_notNext_iff.mpr hnext)
        (reads_rule ihvalue reads_done) (reads_word hsemicolon reads_done))
  | enclosed hopening _ hclosing ihchildren =>
      exact reads_word hopening (reads_rule ihchildren (reads_word hclosing reads_done))
  | noIndex hnext => exact reads_optional_skip (holds_next_eq_false (by simpa using hnext))
  | someIndex _ ihposition =>
      exact (reads_optional_of_holds (holds_next_of_enclosed ihposition)).mpr ihposition
  | callSuffix _ _ ihplain ihqualified =>
      apply (reads_followedBy_iff (p := plainCall.production)
        (q := qualifiedCall.production)).mpr
      exact ⟨_, _, _, ihplain, ihqualified, rfl⟩
  | noPlainCall hnext => exact reads_optional_skip (holds_next_eq_false (by simpa using hnext))
  | plainCall _ ihlist =>
      exact (reads_optional_of_holds (holds_next_of_enclosed ihlist)).mpr ihlist
  | noQualifiedCall hnext =>
      exact reads_optional_skip (holds_next_eq_false (by simpa using hnext))
  | qualifiedCall hdot _ ihlist =>
      apply (reads_optional_of_holds (holds_next_of_lexeme (by simp [hdot]))).mpr
      exact reads_word hdot (reads_any ihlist)
  | noExpression hnext => exact reads_repeated_stop (holds_notNext_eq_false hnext)
  | moreExpressions hnext _ _ _ ihfirst ihseparator ihmore =>
      exact reads_repeated_again (Guard.holds_notNext_iff.mpr hnext)
        (reads_rule ihfirst ihseparator) ihmore
  | noComma hnext => exact reads_optional_skip (holds_next_eq_false (by simpa using hnext))
  | someComma hseparator =>
      apply (reads_optional_of_holds (holds_next_of_lexeme (by simp [hseparator]))).mpr
      exact reads_word hseparator reads_done
  | expression _ _ ihfirst ihmore => exact reads_rule ihfirst ihmore
  | noOperation hnext => exact reads_repeated_stop (holds_next_eq_false hnext)
  | moreOperations hoperator _ _ ihoperand ihmore =>
      exact reads_repeated_again (holds_next_of_lexeme hoperator)
        (reads_any (reads_rule ihoperand reads_done)) ihmore
  | parenthesized _ ihinner =>
      exact reads_choice_yes (holds_next_of_enclosed ihinner) ihinner
  | unary hoperator _ ihoperand =>
      apply reads_choice_no
      · apply holds_next_eq_false
        rintro word hword hnext
        simp_all [nextLexeme, unaryOperators]
      · exact reads_choice_yes (holds_next_of_lexeme hoperator)
          (reads_any (reads_rule ihoperand reads_done))
  | primary hparenthesis hoperator _ _ ihindex ihcall =>
      apply reads_choice_no
      · exact holds_next_eq_false (by simpa [nextLexeme] using hparenthesis)
      · apply reads_choice_no
        · apply holds_next_eq_false
          intro word hword hnext
          exact hoperator (Option.some.inj hnext ▸ hword)
        · refine reads_any ?_
          apply (reads_followedBy_iff (p := index.production)
            (q := Phrase.callSuffix.production)).mpr
          exact ⟨_, _, _, ihindex, ihcall, rfl⟩

end Completeness

/-! ## Parsing and derivation -/

theorem Rule.parses_iff_derives {r : Rule} {tokens rest : List Token}
    {children : Forest Token} :
    r.Parses tokens children rest ↔ Derives (below r) tokens children rest := by
  constructor
  · intro hparse
    exact Rule.below_of_parses derivedBelow (fun _ _ _ _ => derivedBelow_of_reads) hparse
  · intro hderives
    exact Rule.parses_iff_reads.mpr (reads_of_derives hderives)

/-- A phrase has at most one derivation at the head of some tokens. -/
theorem Derives.unique {phrase : Phrase} {tokens rest rest' : List Token}
    {forest forest' : Forest Token} (hderives : Derives phrase tokens forest rest)
    (hderives' : Derives phrase tokens forest' rest') : forest = forest' ∧ rest = rest' := by
  have hruns : ∀ {forest rest}, Derives phrase tokens forest rest →
      phrase.production.RunsTo tokens forest rest := by
    intro forest rest hderives
    apply Production.runsTo_of_reads
    exact (reads_of_derives hderives).mono fun _ _ _ _ => Rule.parses_iff_runsTo.mp
  obtain ⟨fuel, hrun⟩ := hruns hderives
  obtain ⟨fuel', hrun'⟩ := hruns hderives'
  have hmore := Production.run_of_le (Nat.le_max_left fuel fuel') hrun
  have hmore' := Production.run_of_le (Nat.le_max_right fuel fuel') hrun'
  rw [hmore] at hmore'
  simpa using hmore'

theorem Parser.parse_ok_iff_parses {parser : Parser} {rule : Rule} {node : Node Token}
    {rest : List Token} :
    (∃ later, parser.parse rule = (.ok node, later) ∧ later.stream.remaining = rest) ↔
      node.rule = rule ∧ rule.Parses parser.stream.remaining node.children rest := by
  constructor
  · rintro ⟨later, hparse, rfl⟩
    obtain ⟨hrule, rest, hchildren, rfl⟩ := Parser.parse_eq_ok_iff.mp hparse
    have hleft := (TokenStream.remaining_leave hchildren.eq_leaves_append).2
    exact ⟨hrule, by rw [hleft]; exact hchildren⟩
  · rintro ⟨hrule, hchildren⟩
    have hleft := (TokenStream.remaining_leave hchildren.eq_leaves_append).2
    exact ⟨_, Parser.parse_eq_ok_iff.mpr ⟨hrule, rest, hchildren, rfl⟩, hleft⟩

/-- Every rule accepts exactly what the grammar derives from it and builds the
derivation tree, which is unique.  A class has to be all that is left of its
stream. -/
theorem parse_iff_derives :
    (∀ (parser : Parser) (rule : Rule) (node : Node Token) (rest : List Token),
      (∃ later, parser.parse rule = (.ok node, later) ∧ later.stream.remaining = rest) ↔
        node.rule = rule ∧ Derives (below rule) parser.stream.remaining node.children rest) ∧
    (∀ (parser : Parser) (node : Node Token) (rest : List Token),
      (∃ later, parser.parseStatement = (.ok node, later) ∧ later.stream.remaining = rest) ↔
        (∃ word, (word, node.rule) ∈ statementWords ∧
          nextLexeme parser.stream.remaining = some word) ∧
        Derives (below node.rule) parser.stream.remaining node.children rest) ∧
    (∀ (stream : TokenStream) (node : Node Token), stream.parseClass = .ok node ↔
      node.rule = .classDec ∧ Derives (below .classDec) stream.remaining node.children []) ∧
    (∀ (phrase : Phrase) (tokens rest rest' : List Token) (forest forest' : Forest Token),
      Derives phrase tokens forest rest → Derives phrase tokens forest' rest' →
        forest = forest' ∧ rest = rest') := by
  refine ⟨?_, ?_, ?_, ?_⟩
  · intro parser rule node rest
    rw [Parser.parse_ok_iff_parses, Rule.parses_iff_derives]
  · intro parser node rest
    constructor
    · rintro ⟨later, hparse, hleft⟩
      obtain ⟨rule, hselect, hrule⟩ := Parser.exists_parse_of_parseStatement hparse
      obtain ⟨rfl, hchildren⟩ := Parser.parse_ok_iff_parses.mp ⟨later, hrule, hleft⟩
      exact ⟨statementRule?_eq_some_iff.mp hselect, Rule.parses_iff_derives.mp hchildren⟩
    · rintro ⟨hword, hderives⟩
      obtain ⟨later, hparse, hleft⟩ :=
        Parser.parse_ok_iff_parses.mpr ⟨rfl, Rule.parses_iff_derives.mpr hderives⟩
      refine ⟨later, ?_, hleft⟩
      rw [Parser.parseStatement, statementRule?_eq_some_iff.mpr hword]
      exact hparse
  · intro stream node
    rw [TokenStream.parseClass_eq_ok_iff, Rule.parses_iff_derives]
  · intro phrase tokens rest rest' forest forest' hderives hderives'
    exact hderives.unique hderives'

/-- A name with a plain and a qualified call behind it is one term. -/
theorem derives_term_with_both_calls :
    ∃ children, Derives (below .term)
      (["f", "(", ")", ".", "g", "(", ")", ";"].map fun lexeme => ⟨lexeme, default⟩)
      children [⟨";", default⟩] := by
  let token (lexeme : String) : Token := ⟨lexeme, default⟩
  let call (behind : Forest Token) : Forest Token :=
    .leaf (token "(") (.node .expressionList .nil (.leaf (token ")") behind))
  let children := Forest.leaf (token "f")
    (call (.leaf (token ".") (.leaf (token "g") (call .nil))))
  have hparse := (parse_iff_derives.1
    (.ofStream (.ofTokens (["f", "(", ")", ".", "g", "(", ")", ";"].map token)))
    .term ⟨.term, children⟩ [token ";"]).mp ⟨_, rfl, rfl⟩
  exact ⟨children, hparse.2⟩

end JackTree
