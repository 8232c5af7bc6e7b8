import Mathlib.Data.List.Chain
import ShaderBridge.Proofs.Macro.Seams
import ShaderBridge.Proofs.Token.Borders

namespace ShaderBridge

open Lexeme

/-- What no token is read from, in front of what follows it: blanks, comments up to their ends, and
the ends of lines that are continued. -/
inductive Skipped : List Char → List Char → Prop where
  | nil (rest : List Char) : Skipped [] rest
  | blank {c : Char} {gap rest : List Char} :
      isLexBlank c → Skipped gap rest → Skipped (c :: gap) rest
  | continued {gap rest : List Char} : Skipped gap rest → Skipped ('\\' :: '\n' :: gap) rest
  | continuedReturn {gap rest : List Char} : Skipped gap rest →
      Skipped ('\\' :: '\r' :: '\n' :: gap) rest
  | lineComment {comment gap rest : List Char} : '\n' ∉ comment →
      gap ++ rest = [] ∨ (∃ behind, gap ++ rest = '\n' :: behind) → Skipped gap rest →
      Skipped ('/' :: '/' :: (comment ++ gap)) rest
  | blockComment {comment gap rest : List Char} : ¬['*', '/'] <:+: comment → Skipped gap rest →
      Skipped ('/' :: '*' :: (comment ++ ['*', '/'] ++ gap)) rest

variable {c : Char} {cs gap rest text : List Char} {offset extra : Nat} {kind : TokenKind}
  {tokens : List Token}

theorem Skipped.blanks {blanks : List Char} (hblanks : ∀ c ∈ blanks, isLexBlank c)
    (h : Skipped gap rest) : Skipped (blanks ++ gap) rest := by
  induction blanks with
  | nil => exact h
  | cons c blanks ih =>
      obtain ⟨hc, hblanks⟩ := List.forall_mem_cons.1 hblanks
      exact .blank hc (ih hblanks)

theorem not_infix_of_cutAt? {pattern text before rest : List Char}
    (h : cutAt? pattern text = some (before, rest)) (hp : pattern ≠ []) : ¬pattern <:+: before := by
  induction text generalizing before with
  | nil =>
      obtain ⟨rest, -, heq⟩ := Option.map_eq_some_iff.1 h
      cases heq
      rwa [List.infix_nil]
  | cons c cs ih =>
      have happend := append_of_cutAt? h
      rw [cutAt?] at h
      split at h
      · cases h
        rwa [List.infix_nil]
      · next hafter =>
          obtain ⟨⟨before, rest⟩, hcut, heq⟩ := Option.map_eq_some_iff.1 h
          cases heq
          rw [List.infix_cons_iff, not_or]
          refine ⟨?_, ih hcut⟩
          rintro ⟨tail, htail⟩
          have hfound := isSome_after?_append pattern (tail ++ (pattern ++ rest))
          rw [← List.append_assoc, htail, ← happend] at hfound
          rw [hafter] at hfound
          cases hfound

theorem take_length_takeWhile {α : Type} (p : α → Bool) (l : List α) :
    l.take (l.takeWhile p).length = l.takeWhile p :=
  (List.prefix_iff_eq_take.mp (List.takeWhile_prefix p)).symm

theorem skipped_of_lineComment (hrest : cs.dropWhile (· != '\n') = gap ++ rest)
    (hgap : Skipped gap rest) : Skipped ('/' :: '/' :: (cs.takeWhile (· != '\n') ++ gap)) rest := by
  refine .lineComment (fun hmem => by simpa using List.mem_takeWhile_imp hmem) ?_ hgap
  rw [← hrest]
  cases h : cs.dropWhile (· != '\n') with
  | nil => exact .inl rfl
  | cons d behind =>
      have hd : (d != '\n') = false := by
        have := List.head?_dropWhile_not (· != '\n') cs
        rw [h] at this
        simpa using this
      exact .inr ⟨behind, by rw [bne_eq_false_iff_eq.mp hd]⟩

theorem skipped_of_blockComment (h : blockComment cs = .blank extra)
    (hrest : ('*' :: cs).drop extra = gap ++ rest) (hgap : Skipped gap rest) :
    Skipped ('/' :: (('*' :: cs).take extra ++ gap)) rest := by
  unfold blockComment at h
  split at h
  · next comment behind hcut =>
      cases h
      have hsplit : '*' :: cs = ('*' :: (comment ++ ['*', '/'])) ++ behind := by
        rw [append_of_cutAt? hcut]
        simp
      have hlength : 1 + comment.length + 2 = ('*' :: (comment ++ ['*', '/'])).length := by
        simp
        omega
      rw [hlength, hsplit, List.take_left]
      exact .blockComment (not_infix_of_cutAt? hcut (List.cons_ne_nil _ _)) hgap
  · cases h

theorem skipped_of_blank (h : lexeme c cs = .blank extra) (hrest : cs.drop extra = gap ++ rest)
    (hgap : Skipped gap rest) : Skipped (c :: (cs.take extra ++ gap)) rest := by
  by_cases hc : isLexBlank c
  · cases (lexeme_of_isLexBlank hc cs).symm.trans h
    rw [take_length_takeWhile]
    exact .blank hc (hgap.blanks fun x => List.mem_takeWhile_imp)
  rw [Bool.not_eq_true] at hc
  rcases opensComment_or_continuesLine hc h with ⟨rfl, behind, rfl | rfl⟩ | ⟨rfl, behind, rfl | rfl⟩
  · cases (lexeme_lineComment behind).symm.trans h
    rw [take_length_takeWhile]
    rw [drop_length_takeWhile] at hrest
    exact skipped_of_lineComment hrest hgap
  · exact skipped_of_blockComment h hrest hgap
  · cases h
    cases hrest
    exact .continued hgap
  · cases h
    cases hrest
    exact .continuedReturn hgap

theorem kind_ne_endOfFile_of_ofExcept {α : Type} {make : α → TokenKind} {n : Nat}
    {result : Except LexError α} (hmake : ∀ a, make a ≠ .endOfFile)
    (h : ofExcept n (result.map make) = .token kind extra) : kind ≠ .endOfFile := by
  cases result with
  | ok found =>
      cases h
      exact hmake found
  | error e => cases h

theorem kind_ne_endOfFile (h : lexeme c cs = .token kind extra) : kind ≠ .endOfFile := by
  cases hblank : isLexBlank c with
  | true => cases (lexeme_of_isLexBlank hblank cs).symm.trans h
  | false =>
  by_cases hword : isWordStart c
  · cases (lexeme_of_isWordStart hword cs).symm.trans h
    unfold ofWord
    split <;> exact nofun
  cases hscan : Numeral.scan? (c :: cs) with
  | some found =>
      rw [lexeme_number hblank hword hscan] at h
      exact kind_ne_endOfFile_of_ofExcept nofun h
  | none =>
  by_cases hdirective : c = '#'
  · rw [hdirective, lexeme_directive] at h
    exact kind_ne_endOfFile_of_ofExcept nofun h
  by_cases hcomment : OpensComment c cs
  · obtain ⟨rfl, behind, rfl | rfl⟩ := hcomment
    · cases (lexeme_lineComment behind).symm.trans h
    · change blockComment behind = _ at h
      unfold blockComment at h
      split at h <;> cases h
  by_cases hcontinued : ContinuesLine c cs
  · obtain ⟨rfl, behind, rfl | rfl⟩ := hcontinued <;> cases h
  rw [lexeme_of_no_special hblank hword hscan hdirective hcomment hcontinued] at h
  split at h <;> cases h
  exact nofun

theorem tokenize_of_token (h : lexeme c cs = .token kind extra) :
    tokenize (String.ofList (c :: cs.take extra)) =
      .ok [⟨kind, ⟨0, byteLength (c :: cs.take extra)⟩⟩,
        ⟨.endOfFile, ⟨byteLength (c :: cs.take extra), byteLength (c :: cs.take extra)⟩⟩] := by
  have hextra := extra_lexeme_le c cs
  rw [h] at hextra
  have hsplit := List.take_append_drop extra cs
  have halone : lexeme c (cs.take extra) = .token kind extra := by
    rw [← h]
    nth_rewrite 2 [← hsplit]
    refine lexeme_of_append ?_
    rw [hsplit, h, List.length_take]
    exact Nat.le_min.mpr ⟨Nat.le_refl extra, hextra⟩
  unfold tokenize
  rw [String.toList_ofList]
  have hend := tokensFrom_nil (0 + byteLength (c :: (cs.take extra).take extra))
  rw [← List.drop_take_self (i := extra) (l := cs)] at hend
  refine (tokensFrom_token_eq_ok halone hend).trans ?_
  simp [List.take_take]

/-- The tokens that a text is read as behind the characters of a source in front of it. The text is
what is skipped before its first token, that token, which is the same alone, and a text that the
other tokens are read from. -/
inductive Placed : List Char → List Char → List Token → Prop where
  | ended {before gap : List Char} : Skipped gap [] →
      Placed before gap [⟨.endOfFile, ⟨byteLength (before ++ gap), byteLength (before ++ gap)⟩⟩]
  | token {before gap text rest : List Char} {kind : TokenKind} {tokens : List Token} :
      Skipped gap (text ++ rest) → text ≠ [] → kind ≠ .endOfFile →
      tokenize (String.ofList text) = .ok [⟨kind, ⟨0, byteLength text⟩⟩,
        ⟨.endOfFile, ⟨byteLength text, byteLength text⟩⟩] →
      Placed (before ++ gap ++ text) rest tokens →
      Placed before (gap ++ (text ++ rest))
        (⟨kind, ⟨byteLength (before ++ gap), byteLength (before ++ gap ++ text)⟩⟩ :: tokens)

variable {before after : List Char} {source : String}

theorem Placed.prepend (h : Placed (before ++ text) rest tokens)
    (htext : ∀ gap after, rest = gap ++ after → Skipped gap after → Skipped (text ++ gap) after) :
    Placed before (text ++ rest) tokens := by
  cases h with
  | ended hgap =>
      rw [List.append_assoc]
      exact .ended (htext _ _ (List.append_nil _).symm hgap)
  | @token _ gap mark rest kind tokens hgap hne hkind halone hrest =>
      rw [List.append_assoc before text] at hrest ⊢
      rw [← List.append_assoc text gap (mark ++ rest)]
      exact .token (htext _ _ rfl hgap) hne hkind halone hrest

/-- Reading a text places its tokens in it. -/
theorem placed_of_tokensFrom (h : tokensFrom offset cs = .ok tokens)
    (hoffset : byteLength before = offset) : Placed before cs tokens := by
  induction offset, cs using tokensFrom_induction generalizing before tokens with
  | nil offset =>
      cases (tokensFrom_nil offset).symm.trans h
      have hended : Placed before [] _ := .ended (.nil [])
      rwa [List.append_nil, hoffset] at hended
  | blank offset c cs extra hlexeme ih =>
      rw [tokensFrom_of_blank hlexeme] at h
      have hplaced : Placed (before ++ (c :: cs.take extra)) (cs.drop extra) tokens :=
        ih h (by rw [byteLength_append, hoffset])
      have hwhole := hplaced.prepend fun gap rest hrest => skipped_of_blank hlexeme hrest
      rwa [List.cons_append, List.take_append_drop] at hwhole
  | token offset c cs kind extra hlexeme ih =>
      rw [tokensFrom_of_token hlexeme] at h
      obtain ⟨tokens, htokens, rfl⟩ := exceptMap_eq_ok.mp h
      have hrest : Placed (before ++ [] ++ (c :: cs.take extra)) (cs.drop extra) tokens :=
        ih htokens (by rw [List.append_nil, byteLength_append, hoffset])
      have hwhole := Placed.token (.nil _) (List.cons_ne_nil c _) (kind_ne_endOfFile hlexeme)
        (tokenize_of_token hlexeme) hrest
      rwa [List.append_nil, byteLength_append, hoffset, List.nil_append, List.cons_append,
        List.take_append_drop] at hwhole
  | fault offset c cs e extra hlexeme => cases (tokensFrom_of_fault hlexeme offset).symm.trans h

/-- Between two places of a source, there is nothing but what is skipped. -/
def SkippedBetween (source : List Char) (start stop : Nat) : Prop :=
  ∃ before gap after, source = before ++ (gap ++ after) ∧ start = byteLength before ∧
    stop = byteLength (before ++ gap) ∧ Skipped gap after

theorem Placed.ends (h : Placed before cs tokens) :
    ∃ front, tokens = front ++
        [⟨.endOfFile, ⟨byteLength (before ++ cs), byteLength (before ++ cs)⟩⟩] ∧
      ∀ token ∈ front, token.kind ≠ .endOfFile := by
  induction h with
  | ended => exact ⟨[], rfl, nofun⟩
  | token _ _ hkind _ _ ih =>
      obtain ⟨front, rfl, hfront⟩ := ih
      simp only [List.append_assoc]
      refine ⟨_ :: front, rfl, ?_⟩
      exact List.forall_mem_cons.mpr ⟨hkind, hfront⟩

theorem Placed.start_le (h : Placed before cs tokens) :
    ∀ token ∈ tokens, byteLength before ≤ token.span.start := by
  induction h with
  | ended => simp [byteLength_append]
  | token _ _ _ _ _ ih =>
      rw [List.forall_mem_cons]
      refine ⟨by simp [byteLength_append], fun token htoken => ?_⟩
      have := ih token htoken
      simp only [byteLength_append] at this
      omega

theorem byteLength_pos (h : text ≠ []) : 0 < byteLength text := by
  obtain ⟨c, cs, rfl⟩ := List.exists_cons_of_ne_nil h
  rw [byteLength_cons]
  exact Nat.add_pos_left c.utf8Size_pos _

theorem Placed.pairwise (h : Placed before cs tokens) :
    tokens.Pairwise fun a b => a.span.start < b.span.start ∧ a.span.stop ≤ b.span.start := by
  induction h with
  | ended => exact List.pairwise_singleton _ _
  | token _ hne _ _ hrest ih =>
      refine List.pairwise_cons.mpr ⟨fun token htoken => ?_, ih⟩
      have hstart := hrest.start_le token htoken
      have hpos := byteLength_pos hne
      simp only [byteLength_append] at hstart ⊢
      omega

theorem Placed.first (h : Placed before cs tokens) :
    ∀ token ∈ tokens.head?, SkippedBetween (before ++ cs) (byteLength before) token.span.start := by
  cases h with
  | ended hgap =>
      rintro _ ⟨⟩
      exact ⟨before, cs, [], by rw [List.append_nil], rfl, rfl, hgap⟩
  | token hgap =>
      rintro _ ⟨⟩
      exact ⟨before, _, _, rfl, rfl, rfl, hgap⟩

theorem Placed.isChain (h : Placed before cs tokens) :
    tokens.IsChain fun a b => SkippedBetween (before ++ cs) a.span.stop b.span.start := by
  induction h with
  | ended => exact .singleton _
  | token _ _ _ _ hrest ih =>
      have hfirst := hrest.first
      rw [List.append_assoc, List.append_assoc] at hfirst ih
      exact ih.cons hfirst

theorem Placed.token_of_mem (h : Placed before cs tokens) {token : Token} (htoken : token ∈ tokens)
    (hkind : token.kind ≠ .endOfFile) :
    ∃ front text back, before ++ cs = front ++ (text ++ back) ∧
      token.span = ⟨byteLength front, byteLength (front ++ text)⟩ ∧ text ≠ [] ∧
        tokenize (String.ofList text) = .ok [⟨token.kind, ⟨0, byteLength text⟩⟩,
          ⟨.endOfFile, ⟨byteLength text, byteLength text⟩⟩] := by
  induction h with
  | ended =>
      rw [List.mem_singleton] at htoken
      subst htoken
      exact absurd rfl hkind
  | token _ hne _ halone _ ih =>
      rcases List.mem_cons.mp htoken with rfl | htoken
      · exact ⟨_, _, _, (List.append_assoc _ _ _).symm, rfl, hne, halone⟩
      · simpa only [List.append_assoc] using ih htoken

/-- The tokens of a source end with the end of the file, and no other token is one. Each of them but
that one has some characters of the source, from one of its places to another, and these alone are
that token. The tokens are one behind the other, and what is in front of the first one and between
two of them is skipped. -/
theorem tokens_partition_source {tokens : List Token} (h : tokenize source = .ok tokens) :
    (∃ front, tokens = front ++
        [⟨.endOfFile, ⟨byteLength source.toList, byteLength source.toList⟩⟩] ∧
      ∀ token ∈ front, token.kind ≠ .endOfFile ∧
        ∃ before text after, source.toList = before ++ (text ++ after) ∧
          token.span = ⟨byteLength before, byteLength (before ++ text)⟩ ∧ text ≠ [] ∧
            tokenize (String.ofList text) = .ok [⟨token.kind, ⟨0, byteLength text⟩⟩,
              ⟨.endOfFile, ⟨byteLength text, byteLength text⟩⟩]) ∧
    (tokens.Pairwise fun a b => a.span.start < b.span.start ∧ a.span.stop ≤ b.span.start) ∧
    (∀ token ∈ tokens.head?, SkippedBetween source.toList 0 token.span.start) ∧
    tokens.IsChain fun a b => SkippedBetween source.toList a.span.stop b.span.start := by
  have hplaced : Placed [] source.toList tokens := placed_of_tokensFrom h rfl
  obtain ⟨front, hsplit, hfront⟩ := hplaced.ends
  refine ⟨⟨front, hsplit, fun token htoken => ⟨hfront token htoken, ?_⟩⟩, hplaced.pairwise,
    hplaced.first, hplaced.isChain⟩
  refine hplaced.token_of_mem ?_ (hfront token htoken)
  rw [hsplit]
  exact List.mem_append_left _ htoken

def gappedSource : String := "a.b /* . */ += 1.5\\\n;// c"

theorem tokens_partition_gapped :
    ∃ tokens, tokenize gappedSource = .ok tokens ∧
      tokens.map (fun token => (token.span.start, token.span.stop)) =
        [(0, 1), (1, 2), (2, 3), (12, 14), (15, 18), (20, 21), (25, 25)] ∧
      (∀ token ∈ tokens.head?, SkippedBetween gappedSource.toList 0 token.span.start) ∧
      tokens.IsChain fun a b => SkippedBetween gappedSource.toList a.span.stop b.span.start := by
  have hspans : (tokenize gappedSource).toOption.map
      (fun tokens => tokens.map fun token => (token.span.start, token.span.stop)) =
        some [(0, 1), (1, 2), (2, 3), (12, 14), (15, 18), (20, 21), (25, 25)] := by
    decide +kernel
  cases h : tokenize gappedSource with
  | error e =>
      rw [h] at hspans
      cases hspans
  | ok tokens =>
      rw [h] at hspans
      exact ⟨tokens, rfl, Option.some.inj hspans, (tokens_partition_source h).2.2⟩

end ShaderBridge
