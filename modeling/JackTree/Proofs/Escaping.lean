import JackTree.Text.Entities

/-!
# Reading entities back

Escaping is undone from left to right, so escaped texts are equal only when the
texts are.  `escaping_is_undone` adds what escaped texts look like, and that nothing
of this depends on whether a text had to be written anew.
-/

namespace JackTree.Text

/-- A text with its entities read back. -/
def unescape : List Char → List Char
  | '&' :: 'l' :: 't' :: ';' :: rest => '<' :: unescape rest
  | '&' :: 'g' :: 't' :: ';' :: rest => '>' :: unescape rest
  | '&' :: 'q' :: 'u' :: 'o' :: 't' :: ';' :: rest => '"' :: unescape rest
  | '&' :: 'a' :: 'm' :: 'p' :: ';' :: rest => '&' :: unescape rest
  | c :: rest => c :: unescape rest
  | [] => []

theorem unescape_cons {c : Char} (hplain : c ≠ '&') (rest : List Char) :
    unescape (c :: rest) = c :: unescape rest := by
  rw [unescape] <;> (intros; contradiction)

theorem toList_escape (text : String) :
    (escape text).toList = text.toList.flatMap fun c => (entity c).toList := by
  rw [escape, String.toList_join, List.flatMap_map]

theorem unescape_entity_append (c : Char) (rest : List Char) :
    unescape ((entity c).toList ++ rest) = c :: unescape rest := by
  unfold entity
  -- an entity starts with what no other character is read back from
  by_cases hless : c = '<'
  · subst hless
    rfl
  by_cases hgreater : c = '>'
  · subst hgreater
    rfl
  by_cases hquote : c = '"'
  · subst hquote
    rfl
  by_cases hampersand : c = '&'
  · subst hampersand
    rfl
  rw [if_neg hless, if_neg hgreater, if_neg hquote, if_neg hampersand,
    String.toList_singleton, List.singleton_append]
  exact unescape_cons hampersand rest

theorem unescape_escape (text : String) : unescape (escape text).toList = text.toList := by
  rw [toList_escape]
  induction text.toList with
  | nil => rfl
  | cons c rest ih => rw [List.flatMap_cons, unescape_entity_append, ih]

theorem escape_injective {a b : String} (hescape : escape a = escape b) : a = b := by
  apply String.toList_inj.mp
  rw [← unescape_escape a, ← unescape_escape b, hescape]

/-- A character that no entity contains is in an escaped text only if it is in the text. -/
theorem mem_of_mem_escape {c : Char} {text : String} (hc : ∀ d, c ∈ (entity d).toList → c = d)
    (hmem : c ∈ (escape text).toList) : c ∈ text.toList := by
  rw [toList_escape, List.mem_flatMap] at hmem
  obtain ⟨d, hd, hentity⟩ := hmem
  rw [hc d hentity]
  exact hd

/-! ## What escaped texts look like -/

/-- The characters that can not stand for themselves. -/
def specials : List Char := ['<', '>', '"', '&']

/-- What an entity has behind its ampersand. -/
def entityNames : List String := ["lt;", "gt;", "quot;", "amp;"]

theorem entity_cases (c : Char) :
    (c ∈ specials ∧ ∃ name ∈ entityNames, (entity c).toList = '&' :: name.toList) ∨
      (c ∉ specials ∧ (entity c).toList = [c]) := by
  by_cases hspecial : c ∈ specials
  · left
    refine ⟨hspecial, ?_⟩
    simp only [specials, List.mem_cons, List.not_mem_nil, or_false] at hspecial
    rcases hspecial with rfl | rfl | rfl | rfl <;> decide
  · right
    refine ⟨hspecial, ?_⟩
    simp only [specials, List.mem_cons, List.not_mem_nil, or_false, not_or] at hspecial
    obtain ⟨hless, hgreater, hquote, hampersand⟩ := hspecial
    rw [entity, if_neg hless, if_neg hgreater, if_neg hquote, if_neg hampersand,
      String.toList_singleton]

theorem length_le_flatMap_entity (letters : List Char) :
    letters.length ≤ (letters.flatMap fun c => (entity c).toList).length := by
  induction letters with
  | nil => exact Nat.le_refl 0
  | cons c rest ih =>
      rw [List.flatMap_cons, List.length_append, List.length_cons]
      rcases entity_cases c with ⟨-, name, -, hentity⟩ | ⟨-, hentity⟩
      · rw [hentity, List.length_cons]
        omega
      · rw [hentity, List.length_singleton]
        omega

theorem mem_escape {c : Char} {text : String} (hmem : c ∈ (escape text).toList) :
    c = '&' ∨ (∃ name ∈ entityNames, c ∈ name.toList) ∨ c ∉ specials := by
  rw [toList_escape, List.mem_flatMap] at hmem
  obtain ⟨d, -, hentity⟩ := hmem
  rcases entity_cases d with ⟨-, name, hname, hletters⟩ | ⟨hplain, hletters⟩
  · rw [hletters, List.mem_cons] at hentity
    exact hentity.imp_right fun hmem => .inl ⟨name, hname, hmem⟩
  · rw [hletters, List.mem_singleton] at hentity
    exact .inr (.inr (hentity ▸ hplain))

/-- Every ampersand that is written begins an entity. -/
theorem entity_of_ampersand {letters before after : List Char}
    (hsplit : (letters.flatMap fun c => (entity c).toList) = before ++ '&' :: after) :
    ∃ name ∈ entityNames, name.toList <+: after := by
  have hnames : ∀ name ∈ entityNames, '&' ∉ name.toList := by decide
  -- the entities in front of the ampersand are taken off one by one
  induction letters generalizing before with
  | nil => simp at hsplit
  | cons c rest ih =>
      rw [List.flatMap_cons] at hsplit
      rcases List.append_eq_append_iff.mp hsplit with
        ⟨more, hbefore, hrest⟩ | ⟨more, hentity, hafter⟩
      · exact ih hrest
      · rcases more with _ | ⟨first, more⟩
        · exact @ih [] hafter.symm
        obtain ⟨rfl, rfl⟩ := List.cons.inj hafter
        rcases entity_cases c with ⟨-, name, hname, hletters⟩ | ⟨hplain, hletters⟩
        · rw [hletters] at hentity
          rcases before with _ | ⟨first, before⟩
          · exact ⟨name, hname, (List.cons.inj hentity).2 ▸ List.prefix_append _ _⟩
          · have hmem : '&' ∈ name.toList := by
              rw [(List.cons.inj hentity).2]
              simp
            exact absurd hmem (hnames name hname)
        · have hmem : '&' ∈ [c] := by
            rw [← hletters, hentity]
            simp
          rw [← List.mem_singleton.mp hmem] at hplain
          exact absurd (by decide) hplain

theorem escape_append (v w : String) : escape (v ++ w) = escape v ++ escape w := by
  apply String.toList_inj.mp
  rw [String.toList_append, toList_escape, toList_escape, toList_escape, String.toList_append,
    List.flatMap_append]

theorem escape_eq_self_iff {text : String} :
    escape text = text ↔ ∀ c ∈ text.toList, c ∉ specials := by
  rw [← String.toList_inj, toList_escape]
  induction text.toList with
  | nil => simp
  | cons c rest ih =>
      rw [List.flatMap_cons, List.forall_mem_cons]
      rcases entity_cases c with ⟨hspecial, name, hname, hletters⟩ | ⟨hplain, hletters⟩
      · -- an entity is longer than the character it stands for
        have hlonger : ∀ name ∈ entityNames, 0 < name.toList.length := by decide
        have hrest := length_le_flatMap_entity rest
        refine iff_of_false (fun hsame => ?_) fun h => h.1 hspecial
        have hlength := congrArg List.length hsame
        have hname := hlonger name hname
        rw [hletters, List.length_append, List.length_cons, List.length_cons] at hlength
        omega
      · rw [hletters, List.singleton_append, List.cons.injEq, ih]
        simp [hplain]

/-! ## Writing only on need -/

/-- A text that was left as it is, or one that was put together anew. -/
inductive Written where
  | kept (text : String)
  | rebuilt (text : String)

def Written.text : Written → String
  | kept text => text
  | rebuilt text => text

/-- Looks for a special character first, and only then puts entities into a new text. -/
def write (text : String) : Written :=
  if text.toList.any specials.contains then
    .rebuilt (text.toList.foldl (fun written c => written ++ entity c) "")
  else .kept text

theorem foldl_entity (letters : List Char) (written : String) :
    letters.foldl (fun written c => written ++ entity c) written =
      written ++ String.join (letters.map entity) := by
  induction letters generalizing written with
  | nil => simp
  | cons c rest ih => rw [List.foldl_cons, ih, List.map_cons, String.join_cons, String.append_assoc]

theorem any_specials_iff {text : String} :
    text.toList.any specials.contains = true ↔ ¬ ∀ c ∈ text.toList, c ∉ specials := by
  simp

/-- Both ways of writing give the escaped text. -/
theorem text_write (text : String) : (write text).text = escape text := by
  unfold write
  split
  next => rw [Written.text, foldl_entity, String.empty_append, escape]
  next hplain =>
    rw [any_specials_iff, Decidable.not_not] at hplain
    exact (escape_eq_self_iff.mpr hplain).symm

/-- Escaped texts have no bare markup, can be read back, and are put together from the
escaped parts; a text is its own escaped form exactly if nothing in it is special. -/
theorem escaping_is_undone (v w : String) :
    (write v).text = escape v
    ∧ (∀ c ∈ (write v).text.toList, c ∉ ['<', '>', '"'])
    ∧ (∀ before after, (write v).text.toList = before ++ '&' :: after →
        ∃ name ∈ entityNames, name.toList <+: after)
    ∧ unescape (write v).text.toList = v.toList
    ∧ (write (v ++ w)).text = (write v).text ++ (write w).text
    ∧ ((write v).text = v ↔ ∀ c ∈ v.toList, c ∉ specials)
    ∧ ((∃ text, write v = .kept text) ↔ ∀ c ∈ v.toList, c ∉ specials) := by
  rw [text_write, text_write, text_write]
  refine ⟨rfl, fun c hmem hmarkup => ?_,
    fun before after hsplit => entity_of_ampersand (toList_escape v ▸ hsplit),
    unescape_escape v, escape_append v w, escape_eq_self_iff, ?_⟩
  · obtain ⟨hampersand, hname, hspecial⟩ :
        c ≠ '&' ∧ (∀ name ∈ entityNames, c ∉ name.toList) ∧ c ∈ specials := by
      simp only [List.mem_cons, List.not_mem_nil, or_false] at hmarkup
      rcases hmarkup with rfl | rfl | rfl <;> decide
    rcases mem_escape hmem with h | ⟨name, hentity, h⟩ | h
    · exact hampersand h
    · exact hname name hentity h
    · exact h hspecial
  · unfold write
    split
    next hspecial => exact iff_of_false (by simp) (any_specials_iff.mp hspecial)
    next hplain =>
      rw [any_specials_iff, Decidable.not_not] at hplain
      exact iff_of_true ⟨v, rfl⟩ hplain

/-- A text that looks escaped is escaped once more. -/
theorem escaping_is_undone_for_entity_like_text :
    (write "&lt;&amp;amp;").text = "&amp;lt;&amp;amp;amp;"
    ∧ (∃ name ∈ entityNames, name.toList <+: "amp;lt;&amp;amp;amp;".toList)
    ∧ unescape (write "&lt;&amp;amp;").text.toList = "&lt;&amp;amp;".toList := by
  have happly := escaping_is_undone "&lt;&amp;amp;" ""
  exact ⟨by decide +kernel, happly.2.2.1 [] _ (by decide +kernel), happly.2.2.2.1⟩

end JackTree.Text
