import DialogScript.Proofs.Lexing.Lexed
import DialogScript.Proofs.Lexing.TextPlaces
import DialogScript.Proofs.Parsing.Errors
import DialogScript.Proofs.Parsing.Trees

/-!
# Where the errors of the parser are

The errors of the parser are about tokens of the text, never about a token that closes a block at
the end of the source or about that end itself, which may lie past the last line. A token of a
line's own is followed by another one or by the end of the line, so what the parser snags at within
a statement is on a line. And as the tokens of a text close the blocks that they open, it does not
stop at a block that is not closed or at one that was not opened (`Feed.Stops.pointsInto`).
-/

namespace DialogScript

/-- After a token of a line's own comes another one or the end of the line. -/
def Token.LeadsOn (a b : Token) : Prop :=
  a.kind.isLayout = false → b.kind.isLayout = false ∨ b.kind = .lineEnd

namespace Token

private theorem leadsOn_of_layout {a : Token} (h : a.kind.isLayout = true) (b : Token) :
    a.LeadsOn b := by
  intro hown
  rw [h] at hown
  cases hown

/-- What comes after a token of a line's own neither closes a block nor ends the source. -/
theorem LeadsOn.isClosing {a b : Token} (h : a.LeadsOn b) (ha : a.kind.isLayout = false) :
    b.isClosing = false := by
  rcases h ha with hown | hend
  · exact isClosing_of_isLayout hown
  · simp [Token.isClosing, hend]

private theorem isChain_leadsOn_of_layout {ts : List Token} (h : ∀ t ∈ ts, t.kind.isLayout = true) :
    ts.IsChain LeadsOn :=
  (List.pairwise_of_forall_mem_list fun a ha b _ => leadsOn_of_layout (h a ha) b).isChain

end Token

theorem IsMargin.isLayout {margin : List Token} (h : IsMargin margin) :
    ∀ t ∈ margin, t.kind.isLayout = true := by
  rcases h with ⟨o, rfl, ho⟩ | hdedents
  · simp [ho, TokenKind.isLayout]
  · intro t ht
    rw [hdedents t ht]
    rfl

private theorem TokenLine.WellFormed.isChain_leadsOn {l : TokenLine} (h : l.WellFormed) :
    l.tokens.IsChain Token.LeadsOn := by
  have hbody : (l.body ++ [l.ending]).IsChain Token.LeadsOn := by
    refine (List.pairwise_of_forall_mem_list fun a _ b hb _ => ?_).isChain
    rcases List.mem_append.mp hb with hb | hb
    · exact .inl (h.body b hb)
    · exact .inr (List.mem_singleton.mp hb ▸ h.ending)
  rw [TokenLine.tokens, List.append_assoc]
  refine (Token.isChain_leadsOn_of_layout h.margin.isLayout).append hbody fun t ht u _ => ?_
  exact Token.leadsOn_of_layout (h.margin.isLayout t (List.mem_of_getLast? ht)) u

private theorem CompleteLayout.isChain_leadsOn {text : String} {lines : List TokenLine}
    {closing tokens : List Token} {last : Token}
    (h : CompleteLayout text lines closing last tokens) : tokens.IsChain Token.LeadsOn := by
  have hclosing : (closing ++ [last]).IsChain Token.LeadsOn := by
    refine Token.isChain_leadsOn_of_layout (List.forall_mem_append.mpr ⟨fun t ht => ?_, ?_⟩)
    · rw [h.dedents t ht]
      rfl
    · simp [h.sourceEnd, TokenKind.isLayout]
  have hlines := h.wellFormed
  rw [h.tokens_eq, List.append_assoc]
  clear h
  induction lines with
  | nil => exact hclosing
  | cons l lines ih =>
    obtain ⟨hl, hlines⟩ := List.forall_mem_cons.mp hlines
    rw [List.flatMap_cons, List.append_assoc]
    refine hl.isChain_leadsOn.append (ih hlines) fun t ht u _ => Token.leadsOn_of_layout ?_ u
    obtain rfl : l.ending = t := by simpa [TokenLine.tokens] using ht
    rw [hl.ending]
    rfl

/-! ### Tokens of a text -/

variable {text : String}

/-- The tokens of a text without a fault: those that close no block and do not end the source are
in the text, lines go on or end, and the blocks that are opened are closed after that. -/
structure WholeTokens (text : String) (tokens : List Token) : Prop where
  inText : ∀ t ∈ tokens, t.isClosing = false → t.InText text
  endsOnce : EndsOnce tokens
  leadsOn : tokens.IsChain Token.LeadsOn
  blocks : blocksOpened tokens = blocksClosed tokens
  closes : ∀ n, blocksClosed (tokens.take n) ≤ blocksOpened (tokens.take n)

namespace WholeTokens

variable {ts rest : List Token} {t : Token}

/-- After the end of the source there is nothing. -/
theorem rest_eq_nil (h : WholeTokens text (ts ++ t :: rest)) (ht : t.kind = .sourceEnd) :
    rest = [] := by
  obtain ⟨before, last, htokens, -, hbefore⟩ := h.endsOnce
  rcases List.eq_nil_or_concat rest with rfl | ⟨more, u, hrest⟩
  · rfl
  · rw [hrest, List.concat_eq_append, ← List.cons_append, ← List.append_assoc,
      List.append_singleton_inj] at htokens
    exact absurd ht (hbefore t (by simp [← htokens.1]))

/-- After a token of a line's own there is another token. -/
theorem rest_ne_nil (h : WholeTokens text (ts ++ rest)) (hown : EndsOwn ts) : rest ≠ [] := by
  rintro rfl
  obtain ⟨before, last, htokens, hlast, -⟩ := h.endsOnce
  obtain ⟨before', t, rfl, ht⟩ := hown
  rw [List.append_nil, List.append_singleton_inj] at htokens
  rw [htokens.2, hlast] at ht
  cases ht

/-- Wherever the tokens are cut, no more blocks are closed than were opened. -/
theorem closed_le (h : WholeTokens text (ts ++ rest)) : blocksClosed ts ≤ blocksOpened ts := by
  simpa using h.closes ts.length

end WholeTokens

/-- The tokens of a feed are the tokens of a text, or those before a fault. -/
structure Feed.Sound (text : String) (f : Feed) : Prop where
  made : f.WellMade
  fault : ∀ e, f.fault = some e → e.PointsInto text
  cut : f.fault ≠ none → hasTwo f.tokens = true ∧ ∀ t ∈ f.tokens, t.InText text
  whole : f.fault = none → WholeTokens text f.tokens

namespace Feed

variable {f g : Feed} {ts : List Token} {t : Token} {e : ParseError}

namespace Sound

/-- A token that was taken and that closes no block is in the text. -/
theorem taken_inText (h : f.Sound text) (hshows : f.Shows ts g) (ht : t ∈ ts)
    (hclosing : t.isClosing = false) : t.InText text := by
  have hmem : t ∈ f.tokens := by simp [hshows.tokens, ht]
  by_cases hfault : f.fault = none
  · exact (h.whole hfault).inText t hmem hclosing
  · exact (h.cut hfault).2 t hmem

/-- In front of a fault the current token and the one after it are in the text. -/
theorem ahead_inText (h : f.Sound text) (hshows : f.Shows ts g) (hfault : f.fault ≠ none) :
    g.current.InText text ∧ g.following.InText text := by
  obtain ⟨htwo, hall⟩ := h.cut hfault
  have htwo' : hasTwo g.tokens = true := by
    by_cases hts : ts = []
    · subst hts
      rwa [← hshows.eq_of_nil]
    · exact hshows.ahead hts (Option.isSome_iff_ne_none.mpr hfault)
  have hrest := hshows.forall_mem hall
  unfold Feed.current Feed.following
  match htokens : g.tokens, htwo' with
  | t :: u :: more, _ =>
    rw [htokens] at hrest
    exact ⟨hrest t (by simp), hrest u (by simp)⟩

/-- Behind a token of a line's own, or if it closes no block, the current token is in the text. -/
theorem current_inText (h : f.Sound text) (hshows : f.Shows ts g)
    (hplace : EndsOwn ts ∨ g.current.isClosing = false) : g.current.InText text := by
  by_cases hfault : f.fault = none
  · have hwhole := h.whole hfault
    rw [hshows.tokens] at hwhole
    unfold Feed.current at hplace ⊢
    cases htokens : g.tokens with
    | nil =>
      rw [htokens] at hwhole hplace
      rcases hplace with hown | hclosing
      · exact absurd rfl (hwhole.rest_ne_nil hown)
      · have hending : g.ending.kind = .sourceEnd := (h.made.shows hshows).ending
        simp [Token.isClosing, hending] at hclosing
    | cons t rest =>
      rw [htokens] at hwhole hplace
      refine hwhole.inText t (by simp) (hplace.elim ?_ id)
      rintro ⟨before, a, rfl, ha⟩
      exact ((List.isChain_append.mp hwhole.leadsOn).2.2 a (by simp) t (by simp)).isClosing ha
  · exact (h.ahead_inText hshows hfault).1

/-- The token after one of a line's own is in the text. -/
theorem following_inText (h : f.Sound text) (hshows : f.Shows ts g)
    (hown : g.current.kind.isLayout = false) : g.following.InText text := by
  by_cases hfault : f.fault = none
  · obtain ⟨rest, htokens⟩ := (h.made.shows hshows).tokens_eq fun hend => by
      rw [hend] at hown
      cases hown
    have hshow : g.Shows [g.current] { g with tokens := rest } :=
      ⟨htokens, rfl, rfl, rfl, fun _ hsome => by simp [hshows.fault, hfault] at hsome⟩
    rw [hshow.following]
    exact h.current_inText (hshows.trans hshow) (.inl ((EndsOwn.singleton hown).append ts))
  · exact (h.ahead_inText hshows hfault).2

end Sound

/-! ### What the parser stops at -/

/-- A complaint about a token of the text points into it. -/
private theorem complaint_pointsInto (h : t.InText text) {cause : SyntaxCause} :
    ∀ error, t.complaint cause = .malformed error → error.PointsInto text := by
  rintro error herror
  unfold Token.complaint Token.span Span.make at herror
  split at herror
  · rename_i hspan
    split at hspan
    · obtain rfl := Except.ok.inj hspan
      obtain rfl := ParseError.malformed.inj herror
      exact .inl h
    · cases hspan
  · cases herror

private theorem complaintAbout_pointsInto (hcurrent : g.current.InText text)
    (h : t.InText text) {cause : SyntaxCause} :
    ∀ error, g.complaintAbout t cause = .malformed error → error.PointsInto text := by
  unfold Feed.complaintAbout
  split
  · exact complaint_pointsInto hcurrent
  · exact complaint_pointsInto h

private theorem Snags.pointsInto (h : f.Snags e) (hsound : f.Sound text) :
    ∀ error, e = .malformed error → error.PointsInto text := by
  obtain ⟨ts, g, hshows, hsnag⟩ := h
  cases hsnag with
  | fault hfault =>
    rintro error ⟨⟩
    exact hsound.fault _ (hshows.fault ▸ hfault)
  | current _ hplace => exact complaint_pointsInto (hsound.current_inText hshows hplace)
  | next _ hown =>
    refine complaintAbout_pointsInto ?_ (hsound.following_inText hshows hown)
    exact hsound.current_inText hshows (.inr (Token.isClosing_of_isLayout hown))
  | word _ ht hown hplace =>
    exact complaintAbout_pointsInto (hsound.current_inText hshows (.inl hplace))
      (hsound.taken_inText hshows ht (Token.isClosing_of_isLayout hown))
  | range ht hkind =>
    rintro error ⟨⟩
    have hin := hsound.taken_inText hshows ht (by simp [Token.isClosing, hkind])
    exact .inl (hin.extent (hsound.made.shown hshows _ ht))
  | tooLong =>
    rintro error ⟨⟩

/-- The span of a header is in the text. -/
theorem header_inText {before header : List Token} {owner : BodyOwner} {span : Span}
    (hsound : f.Sound text) (hshows : f.Shows (before ++ header) g)
    (h : Grammar.Header f.digits owner header span) : span.InText text := by
  have hextent : ∀ t ∈ header, t.extent.InText text := fun t ht =>
    (hsound.taken_inText hshows (List.mem_append_right _ ht)
      (Token.isClosing_of_isLayout (h.own t ht))).extent
      (hsound.made.shown hshows t (List.mem_append_right _ ht))
  have hkeeps : Grammar.Keeps (fun t => t.extent.InText text) (·.InText text)
      (·.span.InText text) := .ofSpans (fun _ _ ht => ht) fun _ s' hs => hs.join s'
  cases h with
  | loop _ h | branch _ h => exact h.kept hkeeps fun t ht => hextent t (by simp [ht])
  | elseBranch _ _ h => exact h.kept hkeeps fun t ht => hextent t (by simp [ht])
  | otherwise => exact hextent _ (by simp)

private theorem Stops.pointsInto (h : f.Stops e) (hsound : f.Sound text) :
    ∀ error, e = .malformed error → error.PointsInto text := by
  cases h with
  | snag h => exact h.pointsInto hsound
  | body _ hheader hshows =>
    rintro error ⟨⟩
    exact .inl (header_inText hsound hshows hheader).after
  | @unclosed before g hshows hopen hend =>
    refine complaint_pointsInto ?_
    by_cases hfault : f.fault = none
    · -- All blocks are closed where the tokens of a text end.
      have hwhole := hsound.whole hfault
      rw [hshows.tokens] at hwhole
      have hblocks := hwhole.blocks
      cases htokens : g.tokens with
      | nil =>
        rw [htokens, List.append_nil] at hblocks
        omega
      | cons t rest =>
        rw [Feed.current, htokens] at hend
        rw [htokens] at hwhole hblocks
        rw [hwhole.rest_eq_nil hend] at hblocks
        have hend : t.kind = .sourceEnd := hend
        simp only [blocksClosed_append, blocksOpened_append] at hblocks
        simp [blocksClosed, blocksOpened, hend] at hblocks hopen
        omega
    · exact (hsound.ahead_inText hshows hfault).1
  | @unopened before g hshows hclosed hdedent =>
    refine complaint_pointsInto ?_
    by_cases hfault : f.fault = none
    · -- Nowhere in a text are more blocks closed than were opened.
      obtain ⟨rest, htokens⟩ := (hsound.made.shows hshows).tokens_eq (by rw [hdedent]; decide)
      have hwhole := hsound.whole hfault
      rw [hshows.tokens, htokens, List.append_cons] at hwhole
      have hle := hwhole.closed_le
      simp only [blocksClosed_append, blocksOpened_append] at hle
      simp [blocksClosed, blocksOpened, hdedent] at hle hclosed
      omega
    · exact (hsound.ahead_inText hshows hfault).1

end Feed

/-- The error that ends the statements of a text points into the text. -/
theorem pointsInto_of_parseText {text : String} {digits : DigitLimit} {error : SyntaxError}
    (h : (parseText text digits).fault = some (.malformed error)) : error.PointsInto text := by
  have hmade : ∀ t ∈ (tokensOf text).items, t.WellMade := Lexer.wellMade_of_mem_tokens _
  obtain ⟨hplaced, hfault⟩ := inText_tokensOf text
  obtain ⟨-, -, -, -, -, hstops⟩ := parseTokens_outcome digits hmade
  rcases hstops _ h with ⟨_, hlexer, ⟨⟩⟩ | ⟨htwo, hstops⟩
  · exact hfault _ hlexer
  refine hstops.pointsInto ⟨.ofListing hmade digits, hfault, fun hne => ?_, fun hnone => ?_⟩ _ rfl
  · exact ⟨htwo (Option.isSome_iff_ne_none.mpr hne), fun t ht => hplaced t ht (.inr hne)⟩
  · obtain ⟨lines, closing, last, hlayout⟩ := completeLayout_of_fault_eq_none hnone
    exact ⟨fun t ht hkind => hplaced t ht (.inl hkind), hlayout.endsOnce,
      hlayout.isChain_leadsOn, hlayout.blocks, hlayout.closesOpened⟩

end DialogScript
