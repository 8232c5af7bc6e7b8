import ShaderBridge.Proofs.Preprocess.Comments
import ShaderBridge.Proofs.Token.Ending

namespace ShaderBridge

open Lexeme

/-- Whether a comment begins with a character and what follows it. -/
def OpensComment (c : Char) (rest : List Char) : Prop :=
  c = '/' ∧ ∃ behind, rest = '/' :: behind ∨ rest = '*' :: behind

/-- Whether a character stands in a text outside of its comments. -/
inductive OutsideComments (a : Char) : List Char → Prop where
  | here {rest : List Char} : ¬OpensComment a rest → OutsideComments a (a :: rest)
  | behind {c : Char} {rest : List Char} : ¬OpensComment c rest → OutsideComments a rest →
      OutsideComments a (c :: rest)
  | behindLine {rest : List Char} : OutsideComments a (rest.dropWhile (· != '\n')) →
      OutsideComments a ('/' :: '/' :: rest)
  | behindBlock {rest comment behind : List Char} :
      cutAt? ['*', '/'] rest = some (comment, behind) → OutsideComments a behind →
      OutsideComments a ('/' :: '*' :: rest)

/-- A text and what it becomes when its comments are blanked out. -/
inductive Stripped : List Char → List Char → Prop where
  | nil : Stripped [] []
  | line {rest text : List Char} : Stripped (rest.dropWhile (· != '\n')) text →
      Stripped ('/' :: '/' :: rest) (blanked ('/' :: '/' :: rest.takeWhile (· != '\n')) ++ text)
  | block {rest comment behind text : List Char} :
      cutAt? ['*', '/'] rest = some (comment, behind) → Stripped behind text →
      Stripped ('/' :: '*' :: rest) (blanked ('/' :: '*' :: (comment ++ ['*', '/'])) ++ text)
  | keep {c : Char} {rest text : List Char} : ¬OpensComment c rest → Stripped rest text →
      Stripped (c :: rest) (c :: text)

theorem stripped_of_stripComments {offset : Nat} {cs text : List Char}
    (h : stripComments offset cs = .ok text) : Stripped cs text := by
  fun_induction stripComments offset cs generalizing text with
  | case1 =>
      cases h
      exact .nil
  | case2 offset rest comment =>
      rename_i ih
      obtain ⟨tail, htail, rfl⟩ := exceptMap_eq_ok.mp h
      exact .line (ih htail)
  | case3 => cases h
  | case4 offset rest comment behind hcut ih =>
      obtain ⟨tail, htail, rfl⟩ := exceptMap_eq_ok.mp h
      exact .block hcut (ih htail)
  | case5 offset c rest hline hblock ih =>
      obtain ⟨tail, htail, rfl⟩ := exceptMap_eq_ok.mp h
      refine .keep ?_ (ih htail)
      rintro ⟨rfl, behind, hrest | hrest⟩
      · exact hline behind rfl hrest
      · exact hblock behind rfl hrest

theorem mem_blanked {c : Char} {cs : List Char} (h : c ∈ blanked cs) : c = ' ' ∨ c = '\n' := by
  obtain ⟨d, -, hc⟩ := List.mem_flatMap.1 h
  split at hc
  · exact .inr (List.mem_singleton.1 hc)
  · exact .inl (List.eq_of_mem_replicate hc)

theorem isLexBlank_of_mem_blanked {c : Char} {cs : List Char} (h : c ∈ blanked cs) :
    isLexBlank c := by
  rcases mem_blanked h with rfl | rfl <;> rfl

theorem blanked_slash (comment tail : List Char) :
    blanked ('/' :: comment) ++ tail = ' ' :: (blanked comment ++ tail) := by
  rw [blanked, List.flatMap_cons, if_neg (by decide)]
  rfl

theorem Stripped.mem_iff {cs text : List Char} (h : Stripped cs text) {a : Char} (hspace : a ≠ ' ')
    (hfeed : a ≠ '\n') : a ∈ text ↔ OutsideComments a cs := by
  have hblanked (comment : List Char) : a ∉ blanked comment :=
    fun hmem => (mem_blanked hmem).elim hspace hfeed
  induction h with
  | nil =>
      constructor
      · rintro ⟨⟩
      · rintro ⟨⟩
  | line hrest ih =>
      constructor
      · rintro hmem
        rcases List.mem_append.1 hmem with hmem | hmem
        · exact absurd hmem (hblanked _)
        · exact .behindLine (ih.1 hmem)
      · rintro (hopens | ⟨hopens, -⟩ | hout | -)
        · exact absurd ⟨rfl, _, .inl rfl⟩ hopens
        · exact absurd ⟨rfl, _, .inl rfl⟩ hopens
        · exact List.mem_append_right _ (ih.2 hout)
  | block hcut hrest ih =>
      constructor
      · rintro hmem
        rcases List.mem_append.1 hmem with hmem | hmem
        · exact absurd hmem (hblanked _)
        · exact .behindBlock hcut (ih.1 hmem)
      · rintro (hopens | ⟨hopens, -⟩ | - | ⟨hcut', hout⟩)
        · exact absurd ⟨rfl, _, .inr rfl⟩ hopens
        · exact absurd ⟨rfl, _, .inr rfl⟩ hopens
        · cases hcut.symm.trans hcut'
          exact List.mem_append_right _ (ih.2 hout)
  | keep hopens hrest ih =>
      constructor
      · intro hmem
        rcases List.mem_cons.1 hmem with rfl | hmem
        · exact .here hopens
        · exact .behind hopens (ih.1 hmem)
      · intro hout
        cases hout with
        | here => exact List.mem_cons_self
        | behind _ hout => exact List.mem_cons_of_mem _ (ih.2 hout)
        | behindLine => exact absurd ⟨rfl, _, .inl rfl⟩ hopens
        | behindBlock => exact absurd ⟨rfl, _, .inr rfl⟩ hopens

theorem Stripped.not_opensComment {cs text : List Char} (h : Stripped cs text) {c : Char}
    (hc : ¬OpensComment c cs) : ¬OpensComment c text := by
  rintro ⟨rfl, behind, htext⟩
  induction h with
  | nil => rcases htext with htext | htext <;> cases htext
  | line | block =>
      rw [blanked_slash] at htext
      rcases htext with htext | htext <;> exact absurd (List.cons.inj htext).1 (by decide)
  | keep =>
      rcases htext with htext | htext
      · exact hc ⟨rfl, _, .inl (by rw [(List.cons.inj htext).1])⟩
      · exact hc ⟨rfl, _, .inr (by rw [(List.cons.inj htext).1])⟩

theorem stripComments_keep {c : Char} {rest text : List Char} (hc : ¬OpensComment c rest)
    (h : ∀ offset, stripComments offset rest = .ok text) (offset : Nat) :
    stripComments offset (c :: rest) = .ok (c :: text) := by
  rw [stripComments_kept offset (fun behind hslash hrest => hc ⟨hslash, behind, .inl hrest⟩)
    (fun behind hslash hrest => hc ⟨hslash, behind, .inr hrest⟩), h]
  rfl

theorem stripComments_blanks {blanks text : List Char} (hblanks : ∀ c ∈ blanks, isLexBlank c)
    (h : ∀ offset, stripComments offset text = .ok text) (offset : Nat) :
    stripComments offset (blanks ++ text) = .ok (blanks ++ text) := by
  induction blanks generalizing offset with
  | nil => exact h offset
  | cons c blanks ih =>
      refine stripComments_keep ?_ (ih fun c hc => hblanks c (List.mem_cons_of_mem _ hc)) offset
      rintro ⟨rfl, -⟩
      exact absurd (hblanks '/' List.mem_cons_self) (by decide)

theorem Stripped.stripComments_eq {cs text : List Char} (h : Stripped cs text) (offset : Nat) :
    stripComments offset text = .ok text := by
  induction h generalizing offset with
  | nil => rw [stripComments]
  | line _ ih | block _ _ ih =>
      exact stripComments_blanks (fun _ => isLexBlank_of_mem_blanked) ih offset
  | keep hc h ih => exact stripComments_keep (h.not_opensComment hc) ih offset

/-- The offsets of the line feeds in a text whose first byte has the given offset. -/
def lineFeedOffsets (offset : Nat) : List Char → List Nat
  | [] => []
  | c :: cs =>
    if c = '\n' then offset :: lineFeedOffsets (offset + c.utf8Size) cs
    else lineFeedOffsets (offset + c.utf8Size) cs

theorem lineFeedOffsets_blanks (offset n : Nat) (cs : List Char) :
    lineFeedOffsets offset (List.replicate n ' ' ++ cs) = lineFeedOffsets (offset + n) cs := by
  induction n generalizing offset with
  | zero => rfl
  | succ n ih =>
      rw [List.replicate_succ, List.cons_append, lineFeedOffsets, if_neg (by decide), ih,
        Nat.add_assoc, show (' ').utf8Size = 1 from rfl, Nat.add_comm 1 n]

theorem Blanks.lineFeedOffsets_eq {cs ds : List Char} (h : Blanks cs ds) (offset : Nat) :
    lineFeedOffsets offset ds = lineFeedOffsets offset cs := by
  induction h generalizing offset with
  | nil => rfl
  | keep c _ ih => rw [lineFeedOffsets, lineFeedOffsets, ih]
  | blank c hc _ ih => rw [lineFeedOffsets_blanks, lineFeedOffsets, if_neg hc, ih]

theorem Stripped.exists_kept {cs text : List Char} (h : Stripped cs text) :
    ∃ kept rest tail, cs = kept ++ rest ∧ text = kept ++ tail ∧
      (rest = [] ∧ tail = [] ∨ ∃ x y, rest = '/' :: x ∧ tail = ' ' :: y) ∧
      ∀ n ≤ kept.length, Stripped (kept.drop n ++ rest) (kept.drop n ++ tail) := by
  induction h with
  | nil =>
      refine ⟨[], [], [], rfl, rfl, .inl ⟨rfl, rfl⟩, fun n _ => ?_⟩
      rw [List.drop_nil]
      exact .nil
  | line h =>
      refine ⟨[], _, _, rfl, rfl, .inr ⟨_, _, rfl, blanked_slash _ _⟩, fun n _ => ?_⟩
      rw [List.drop_nil]
      exact .line h
  | block hcut h =>
      refine ⟨[], _, _, rfl, rfl, .inr ⟨_, _, rfl, blanked_slash _ _⟩, fun n _ => ?_⟩
      rw [List.drop_nil]
      exact .block hcut h
  | @keep c rest text hc h ih =>
      obtain ⟨kept, rest, tail, rfl, rfl, hcomment, hdrop⟩ := ih
      refine ⟨c :: kept, rest, tail, rfl, rfl, hcomment, fun n hn => ?_⟩
      cases n with
      | zero => exact .keep hc h
      | succ n => exact hdrop n (Nat.le_of_succ_le_succ hn)

theorem tokensFrom_blanks {blanks : List Char} (hblanks : ∀ c ∈ blanks, isLexBlank c) (offset : Nat)
    (cs : List Char) :
    tokensFrom offset (blanks ++ cs) = tokensFrom (offset + byteLength blanks) cs := by
  induction blanks generalizing offset with
  | nil => rfl
  | cons c blanks ih =>
      rw [List.cons_append, tokensFrom_blank (hblanks c List.mem_cons_self),
        ih (fun c hc => hblanks c (List.mem_cons_of_mem _ hc)), byteLength_cons, Nat.add_assoc]

theorem tokensFrom_line (offset : Nat) (rest : List Char) :
    tokensFrom offset ('/' :: '/' :: rest) =
      tokensFrom (offset + byteLength ('/' :: '/' :: rest.takeWhile (· != '\n')))
        (rest.dropWhile (· != '\n')) := by
  have hlexeme : lexeme '/' ('/' :: rest) =
      .blank ('/' :: rest.takeWhile (· != '\n')).length := rfl
  rw [tokensFrom, hlexeme]
  dsimp only
  rw [List.length_cons, List.take_succ_cons, List.drop_succ_cons, drop_length_takeWhile,
    ← List.prefix_iff_eq_take.1 (List.takeWhile_prefix _)]

theorem tokensFrom_block (offset : Nat) {rest comment behind : List Char}
    (hcut : cutAt? ['*', '/'] rest = some (comment, behind)) :
    tokensFrom offset ('/' :: '*' :: rest) =
      tokensFrom (offset + byteLength ('/' :: '*' :: (comment ++ ['*', '/']))) behind := by
  have hlexeme : lexeme '/' ('*' :: rest) =
      .blank ('*' :: (comment ++ ['*', '/'])).length := by
    show blockComment rest = _
    rw [blockComment, hcut]
    refine congrArg Lexeme.blank ?_
    simp only [List.length_cons, List.length_append, List.length_nil]
    omega
  have hrest : '*' :: rest = '*' :: (comment ++ ['*', '/']) ++ behind := by
    simp [append_of_cutAt? hcut]
  rw [tokensFrom, hlexeme, hrest]
  dsimp only
  rw [List.take_left, List.drop_left]

theorem lexeme_kept {c : Char} {kept rest tail : List Char} (hblank : isLexBlank c = false)
    (hdirective : c ≠ '#') (hc : ¬OpensComment c (kept ++ rest))
    (hcomment : rest = [] ∧ tail = [] ∨ ∃ x y, rest = '/' :: x ∧ tail = ' ' :: y) :
    lexeme c (kept ++ tail) = lexeme c kept ∧ lexeme c (kept ++ rest) = lexeme c kept := by
  rcases hcomment with ⟨rfl, rfl⟩ | ⟨x, y, rfl, rfl⟩
  · rw [List.append_nil]
    exact ⟨rfl, rfl⟩
  · have hslash : c = '/' → ∃ a q, kept = a :: q ∧ a ≠ '/' ∧ a ≠ '*' := by
      rintro rfl
      cases kept with
      | nil => exact absurd ⟨rfl, x, .inl rfl⟩ hc
      | cons a q =>
          refine ⟨a, q, rfl, ?_, ?_⟩
          · rintro rfl
            exact hc ⟨rfl, _, .inl rfl⟩
          · rintro rfl
            exact hc ⟨rfl, _, .inr rfl⟩
    exact ⟨lexeme_append_cons (.inr rfl) hblank hdirective hslash y,
      lexeme_append_cons (.inl rfl) hblank hdirective hslash x⟩

theorem tokensFrom_congr {c : Char} {cs ds : List Char} (hlexeme : lexeme c cs = lexeme c ds)
    (htake : cs.take (lexeme c ds).extra = ds.take (lexeme c ds).extra)
    (hnext : ∀ offset, tokensFrom offset (cs.drop (lexeme c ds).extra) =
      tokensFrom offset (ds.drop (lexeme c ds).extra)) (offset : Nat) :
    tokensFrom offset (c :: cs) = tokensFrom offset (c :: ds) := by
  rw [tokensFrom, tokensFrom, hlexeme]
  cases h : lexeme c ds with
  | blank extra | token kind extra =>
      simp only [h, Lexeme.extra] at htake hnext
      simp only [htake, hnext]
  | fault e extra =>
      simp only [h, Lexeme.extra] at htake
      simp only [htake]

/-- The tokens of a text without directives are the same when its comments are blanked out. -/
theorem Stripped.tokensFrom_eq {cs text : List Char} (h : Stripped cs text) (hhash : '#' ∉ text)
    (offset : Nat) : tokensFrom offset text = tokensFrom offset cs := by
  induction hn : cs.length using Nat.strong_induction_on generalizing cs text offset with
  | _ n ih =>
  cases h with
  | nil => rfl
  | @line rest text h =>
      have hlength : (rest.dropWhile (· != '\n')).length < n := by
        have := (List.dropWhile_sublist (l := rest) (· != '\n')).length_le
        simp only [List.length_cons] at hn
        omega
      rw [tokensFrom_blanks fun _ => isLexBlank_of_mem_blanked, tokensFrom_line,
        (blanks_blanked _).byteLength_eq]
      exact ih _ hlength h (fun hmem => hhash (List.mem_append_right _ hmem)) _ rfl
  | @block rest comment behind text hcut h =>
      have hlength : behind.length < n := by
        have := length_of_cutAt? hcut
        simp only [List.length_cons, List.length_nil] at hn this
        omega
      rw [tokensFrom_blanks fun _ => isLexBlank_of_mem_blanked, tokensFrom_block _ hcut,
        (blanks_blanked _).byteLength_eq]
      exact ih _ hlength h (fun hmem => hhash (List.mem_append_right _ hmem)) _ rfl
  | @keep c rest text hc h =>
      rw [List.mem_cons, not_or] at hhash
      rw [List.length_cons] at hn
      by_cases hblank : isLexBlank c
      · rw [tokensFrom_blank hblank, tokensFrom_blank hblank]
        exact ih rest.length (by omega) h hhash.2 _ rfl
      · rw [Bool.not_eq_true] at hblank
        obtain ⟨kept, rest, tail, rfl, rfl, hcomment, hdrop⟩ := h.exists_kept
        obtain ⟨htail, hrest⟩ := lexeme_kept hblank (Ne.symm hhash.1) hc hcomment
        have hextra := extra_lexeme_le c kept
        rw [← hrest] at hextra
        -- The lexeme lies in what is kept, and what follows it is a stripped text again.
        have hnext (extra : Nat) (hextra : extra ≤ kept.length) (offset : Nat) :
            tokensFrom offset ((kept ++ tail).drop extra) =
              tokensFrom offset ((kept ++ rest).drop extra) := by
          have hmem : '#' ∉ (kept ++ tail).drop extra :=
            fun hmem => hhash.2 (List.mem_of_mem_drop hmem)
          have hlength : ((kept ++ rest).drop extra).length < n := by
            rw [List.length_drop]
            omega
          rw [List.drop_append_of_le_length hextra] at hmem hlength ⊢
          rw [List.drop_append_of_le_length hextra]
          exact ih _ hlength (hdrop extra hextra) hmem _ rfl
        refine tokensFrom_congr (htail.trans hrest.symm) ?_ (hnext _ hextra) offset
        rw [List.take_append_of_le_length hextra, List.take_append_of_le_length hextra]

/-- Blanking out the comments of a text does not show in its tokens nor in the error that stands
for them, if there are no directives. Every byte and every line feed stays where it is, and the
second time nothing is left to be done. -/
theorem tokenize_of_stripComments {source : String} {text : List Char}
    (h : stripComments 0 source.toList = .ok text) :
    (¬OutsideComments '#' source.toList → tokenize (String.ofList text) = tokenize source) ∧
      byteLength text = byteLength source.toList ∧
      lineFeedOffsets 0 text = lineFeedOffsets 0 source.toList ∧
      stripComments 0 text = .ok text := by
  have hstripped := stripped_of_stripComments h
  have hblanks := blanks_of_stripComments h
  refine ⟨fun hhash => ?_, hblanks.byteLength_eq, hblanks.lineFeedOffsets_eq 0,
    hstripped.stripComments_eq 0⟩
  rw [tokenize, tokenize, String.toList_ofList]
  exact hstripped.tokensFrom_eq (mt (hstripped.mem_iff (by decide) (by decide)).1 hhash) 0

/-- A division, a comment with a mark of directives in it and a comment that ends the line. -/
theorem tokenize_of_stripComments_division :
    stripComments 0 "a/b/*#*/=1.//2\n".toList = .ok "a/b     =1.   \n".toList ∧
      tokenize (String.ofList "a/b     =1.   \n".toList) = tokenize "a/b/*#*/=1.//2\n" := by
  have h : stripComments 0 "a/b/*#*/=1.//2\n".toList = .ok "a/b     =1.   \n".toList := by
    decide +kernel
  refine ⟨h, (tokenize_of_stripComments h).1 ?_⟩
  rw [← (stripped_of_stripComments h).mem_iff (by decide) (by decide)]
  decide

end ShaderBridge
