import ShaderBridge.Preprocess.Comment
import ShaderBridge.Proofs.Macro.Seams

namespace ShaderBridge

/-- Some characters of the first text, none of them a line feed, are blanked out in the second. -/
inductive Blanks : List Char → List Char → Prop where
  | nil : Blanks [] []
  | keep {cs ds : List Char} (c : Char) : Blanks cs ds → Blanks (c :: cs) (c :: ds)
  | blank {cs ds : List Char} (c : Char) (hc : c ≠ '\n') : Blanks cs ds →
      Blanks (c :: cs) (List.replicate c.utf8Size ' ' ++ ds)

theorem Blanks.append {a b as bs : List Char} (ha : Blanks a as) (hb : Blanks b bs) :
    Blanks (a ++ b) (as ++ bs) := by
  induction ha with
  | nil => exact hb
  | keep c _ ih => exact ih.keep c
  | blank c hc _ ih =>
      rw [List.append_assoc]
      exact ih.blank c hc

theorem blanks_blanked (cs : List Char) : Blanks cs (blanked cs) := by
  induction cs with
  | nil => exact .nil
  | cons c cs ih =>
      by_cases hc : c = '\n'
      · subst hc
        exact ih.keep '\n'
      · simpa [blanked, hc] using ih.blank c hc

theorem append_of_after? {pattern cs rest : List Char} (h : after? pattern cs = some rest) :
    cs = pattern ++ rest := by
  fun_induction after? pattern cs with
  | case1 => simpa using h
  | case2 => cases h
  | case3 c ps cs ih => rw [ih h, List.cons_append]
  | case4 => cases h

theorem append_of_cutAt? {pattern cs before rest : List Char}
    (h : cutAt? pattern cs = some (before, rest)) : cs = before ++ (pattern ++ rest) := by
  induction cs generalizing before with
  | nil =>
      simp only [cutAt?, Option.map_eq_some_iff, Prod.mk.injEq] at h
      obtain ⟨_, h, rfl, rfl⟩ := h
      simpa using append_of_after? h
  | cons c cs ih =>
      simp only [cutAt?] at h
      split at h
      · rename_i ha
        cases h
        simpa using append_of_after? ha
      · simp only [Option.map_eq_some_iff, Prod.mk.injEq, Prod.exists] at h
        obtain ⟨before, _, h, rfl, rfl⟩ := h
        rw [List.cons_append, ← ih h]

theorem blanks_of_stripComments {offset : Nat} {cs text : List Char}
    (h : stripComments offset cs = .ok text) : Blanks cs text := by
  fun_induction stripComments offset cs generalizing text with
  | case1 =>
      cases h
      exact .nil
  | case2 offset rest comment =>
      rename_i ih
      obtain ⟨tail, ht, rfl⟩ := exceptMap_eq_ok.mp h
      have hr : '/' :: '/' :: rest = '/' :: '/' :: comment ++ rest.dropWhile (· != '\n') := by
        simp [comment, List.takeWhile_append_dropWhile]
      rw [hr]
      exact (blanks_blanked _).append (ih ht)
  | case3 => cases h
  | case4 offset rest comment rest' hc ih =>
      obtain ⟨tail, ht, rfl⟩ := exceptMap_eq_ok.mp h
      have hr : '/' :: '*' :: rest = '/' :: '*' :: (comment ++ ['*', '/']) ++ rest' := by
        simp [append_of_cutAt? hc]
      rw [hr]
      exact (blanks_blanked _).append (ih ht)
  | case5 offset c rest =>
      rename_i ih
      obtain ⟨tail, ht, rfl⟩ := exceptMap_eq_ok.mp h
      exact (ih ht).keep c

namespace Blanks

theorem lineFeeds_eq {cs ds : List Char} (h : Blanks cs ds) : lineFeeds ds = lineFeeds cs := by
  induction h with
  | nil => rfl
  | keep c _ ih =>
      simp only [lineFeeds] at ih
      simp [lineFeeds, List.count_cons, ih]
  | blank c hc _ ih =>
      simp only [lineFeeds] at ih
      simp [lineFeeds, List.count_replicate, ih, hc]

theorem byteLength_eq {cs ds : List Char} (h : Blanks cs ds) : byteLength ds = byteLength cs := by
  have hblank (n : Nat) : byteLength (List.replicate n ' ') = n := by
    have : (' ').utf8Size = 1 := by decide
    induction n with
    | zero => rfl
    | succ n ih => simp [List.replicate_succ, ih, this, Nat.add_comm]
  induction h with
  | nil => rfl
  | keep c _ ih => simp [ih]
  | blank c _ _ ih => simp [byteLength_append, hblank, ih]

theorem eq_nil {cs : List Char} (h : Blanks cs []) : cs = [] := by
  have hl := h.byteLength_eq
  cases cs with
  | nil => rfl
  | cons c cs =>
      have := c.utf8Size_pos
      simp only [byteLength_nil, byteLength_cons] at hl
      omega

theorem exists_append {cs ds : List Char} (h : Blanks cs ds) {front back : List Char}
    (he : ds = front ++ back) (hf : front = [] ∨ back = [] ∨ front.getLast? = some '\n') :
    ∃ front' back', cs = front' ++ back' ∧ Blanks front' front ∧ Blanks back' back := by
  induction h generalizing front with
  | nil =>
      obtain ⟨rfl, rfl⟩ := List.append_eq_nil_iff.mp he.symm
      exact ⟨[], [], rfl, .nil, .nil⟩
  | @keep cs ds c h ih =>
      rcases front with _ | ⟨d, front⟩
      · rw [List.nil_append] at he
        exact ⟨[], c :: cs, rfl, .nil, he ▸ h.keep c⟩
      · rw [List.cons_append, List.cons.injEq] at he
        obtain ⟨rfl, he⟩ := he
        have hf : front = [] ∨ back = [] ∨ front.getLast? = some '\n' := by
          cases front with
          | nil => exact .inl rfl
          | cons e front => simpa [List.getLast?_cons_cons] using hf
        obtain ⟨front', back', rfl, hfront, hback⟩ := ih he hf
        exact ⟨c :: front', back', rfl, hfront.keep c, hback⟩
  | @blank cs ds c hc h ih =>
      rcases hf with rfl | rfl | hf
      · rw [List.nil_append] at he
        exact ⟨[], c :: cs, rfl, .nil, he ▸ h.blank c hc⟩
      · rw [List.append_nil] at he
        exact ⟨c :: cs, [], by simp, he ▸ h.blank c hc, .nil⟩
      · rcases List.append_eq_append_iff.mp he with ⟨rest, rfl, hds⟩ | ⟨rest, hr, _⟩
        · have hf : rest = [] ∨ back = [] ∨ rest.getLast? = some '\n' := by
            cases rest with
            | nil => exact .inl rfl
            | cons e rest => exact .inr (.inr (by simpa using hf))
          obtain ⟨front', back', rfl, hfront, hback⟩ := ih hds hf
          exact ⟨c :: front', back', rfl, hfront.blank c hc, hback⟩
        · have hm := List.mem_of_getLast? hf
          have : '\n' ∈ List.replicate c.utf8Size ' ' := hr ▸ List.mem_append_left _ hm
          simp at this

theorem ended {cs ds : List Char} (h : Blanks cs ds) (hd : Ended ds) : Ended cs := by
  induction h with
  | nil => exact hd
  | @keep cs ds c h ih =>
      rcases ds with _ | ⟨d, ds⟩
      · obtain rfl := h.eq_nil
        exact hd
      · exact (ih (hd.suffix (a := [c]) (by simp))).prepend [c]
  | @blank cs ds c hc h ih =>
      rcases ds with _ | ⟨d, ds⟩
      · have := hd.mem
        simp at this
      · exact (ih (hd.suffix (by simp))).prepend [c]

end Blanks

theorem after?_append {pattern cs rest : List Char} (h : after? pattern cs = some rest)
    (b : List Char) : after? pattern (cs ++ b) = some (rest ++ b) := by
  fun_induction after? pattern cs with
  | case1 => simpa [after?] using h
  | case2 => cases h
  | case3 c ps cs ih => simpa [after?] using ih h
  | case4 => cases h

theorem after?_append_of_none {pattern cs : List Char} (hl : pattern.length ≤ cs.length)
    (h : after? pattern cs = none) (b : List Char) : after? pattern (cs ++ b) = none := by
  fun_induction after? pattern cs with
  | case1 => cases h
  | case2 => simp at hl
  | case3 c ps cs ih => simpa [after?] using ih (by simpa using hl) h
  | case4 c ps d cs hc => simp [after?, hc]

theorem cutAt?_append {pattern cs before rest : List Char} (hp : pattern ≠ [])
    (h : cutAt? pattern cs = some (before, rest)) (b : List Char) :
    cutAt? pattern (cs ++ b) = some (before, rest ++ b) := by
  induction cs generalizing before with
  | nil =>
      obtain ⟨c, ps, rfl⟩ := List.exists_cons_of_ne_nil hp
      simp [cutAt?, after?] at h
  | cons c cs ih =>
      simp only [cutAt?, List.cons_append] at h ⊢
      cases ha : after? pattern (c :: cs) with
      | some rest' =>
          rw [ha] at h
          cases h
          have := after?_append ha b
          rw [List.cons_append] at this
          rw [this]
      | none =>
          rw [ha] at h
          obtain ⟨⟨before, rest'⟩, hc, he⟩ := Option.map_eq_some_iff.mp h
          cases he
          -- The pattern is further on in the first text, so it does not reach over its end here.
          have hlength := length_of_cutAt? hc
          have := after?_append_of_none (by simp only [List.length_cons]; omega) ha b
          rw [List.cons_append] at this
          rw [this, ih hc]
          rfl

section

variable (offset : Nat)

theorem stripComments_line (rest : List Char) :
    stripComments offset ('/' :: '/' :: rest) =
      (blanked ('/' :: '/' :: rest.takeWhile (· != '\n')) ++ ·) <$>
        stripComments (offset + 2 + byteLength (rest.takeWhile (· != '\n')))
          (rest.dropWhile (· != '\n')) := by
  rw [stripComments]

theorem stripComments_block {rest comment behind : List Char}
    (h : cutAt? ['*', '/'] rest = some (comment, behind)) :
    stripComments offset ('/' :: '*' :: rest) =
      (blanked ('/' :: '*' :: (comment ++ ['*', '/'])) ++ ·) <$>
        stripComments (offset + 4 + byteLength comment) behind := by
  rw [stripComments]
  split
  · rename_i h'
    cases h.symm.trans h'
  · rename_i h'
    cases h.symm.trans h'
    rfl

theorem stripComments_kept {c : Char} {rest : List Char}
    (hl : ∀ behind, c = '/' → rest = '/' :: behind → False)
    (hb : ∀ behind, c = '/' → rest = '*' :: behind → False) :
    stripComments offset (c :: rest) = (c :: ·) <$> stripComments (offset + c.utf8Size) rest := by
  rw [stripComments]
  · exact hl
  · exact hb

end

theorem stripComments_append {offset : Nat} {cs text : List Char}
    (h : stripComments offset cs = .ok text) (he : cs = [] ∨ Ended cs) (b : List Char) :
    stripComments offset (cs ++ b) =
      (text ++ ·) <$> stripComments (offset + byteLength cs) b := by
  have hslash : ('/').utf8Size = 1 := by decide
  have hstar : ('*').utf8Size = 1 := by decide
  have hrest {front rest : List Char} (he : Ended (front ++ rest)) : rest = [] ∨ Ended rest := by
    by_cases hr : rest = []
    · exact .inl hr
    · exact .inr (he.suffix hr)
  fun_induction stripComments offset cs generalizing text with
  | case1 offset =>
      cases h
      simp
  | case2 offset rest comment =>
      rename_i ih
      obtain ⟨tail, ht, rfl⟩ := exceptMap_eq_ok.mp h
      have he := he.resolve_left (by simp)
      have hsplit : comment ++ rest.dropWhile (· != '\n') = rest :=
        List.takeWhile_append_dropWhile
      -- The line feed at the end of the text ends the comment.
      have hcomment : comment ≠ rest := by
        intro hall
        have hm : '\n' ∈ comment := by simpa [hall] using he.mem
        have := List.all_eq_true.mp List.all_takeWhile _ hm
        simp at this
      have htake : (rest ++ b).takeWhile (· != '\n') = comment :=
        Piece.takeWhile_append_of_ne hcomment b
      have hdrop : (rest ++ b).dropWhile (· != '\n') = rest.dropWhile (· != '\n') ++ b := by
        have hall : (rest ++ b).takeWhile (· != '\n') ++ (rest ++ b).dropWhile (· != '\n') =
            rest ++ b := List.takeWhile_append_dropWhile
        rw [htake] at hall
        refine List.append_cancel_left (?_ : comment ++ _ = comment ++ _)
        rw [hall, ← List.append_assoc, hsplit]
      have hended : Ended (['/', '/'] ++ comment ++ rest.dropWhile (· != '\n')) := by
        rw [List.append_assoc, hsplit]
        exact he
      have hbytes : offset + 2 + byteLength comment + byteLength (rest.dropWhile (· != '\n')) =
          offset + byteLength ('/' :: '/' :: rest) := by
        have hlength := congrArg byteLength hsplit
        simp only [byteLength_cons, byteLength_append, hslash] at hlength ⊢
        omega
      rw [List.cons_append, List.cons_append, stripComments_line, htake, hdrop,
        ih ht (hrest hended), Functor.map_map, hbytes]
      simp
  | case3 => cases h
  | case4 offset rest comment behind hc ih =>
      obtain ⟨tail, ht, rfl⟩ := exceptMap_eq_ok.mp h
      have hsplit := append_of_cutAt? hc
      have hended : Ended ('/' :: '*' :: (comment ++ ['*', '/']) ++ behind) := by
        simpa [hsplit] using he.resolve_left (by simp)
      have hbytes : offset + 4 + byteLength comment + byteLength behind =
          offset + byteLength ('/' :: '*' :: rest) := by
        rw [hsplit]
        simp only [byteLength_cons, byteLength_append, byteLength_nil, hslash, hstar]
        omega
      rw [List.cons_append, List.cons_append, stripComments_block _ (cutAt?_append (by simp) hc b),
        ih ht (hrest hended), Functor.map_map, hbytes]
      simp
  | case5 offset c rest hl hb ih =>
      obtain ⟨tail, ht, rfl⟩ := exceptMap_eq_ok.mp h
      have hended : Ended ([c] ++ rest) := he.resolve_left (by simp)
      -- A slash alone does not end a line, so what opens a comment is not cut in two.
      have hopens (d : Char) (hd : ∀ behind, c = '/' → rest = d :: behind → False) :
          ∀ behind, c = '/' → rest ++ b = d :: behind → False := by
        rintro behind rfl hr
        rcases rest with _ | ⟨e, rest⟩
        · cases hended
        · cases hr
          exact hd rest rfl rfl
      rw [List.cons_append, stripComments_kept _ (hopens _ hl) (hopens _ hb), ih ht (hrest hended),
        Functor.map_map, byteLength_cons, Nat.add_assoc]
      simp

theorem stripComments_ok {offset : Nat} {cs text : List Char}
    (h : stripComments offset cs = .ok text) (offset' : Nat) :
    stripComments offset' cs = .ok text := by
  fun_induction stripComments offset cs generalizing text offset' with
  | case1 offset => rwa [stripComments]
  | case2 offset rest comment =>
      rename_i ih
      obtain ⟨tail, ht, rfl⟩ := exceptMap_eq_ok.mp h
      rw [stripComments_line, ih ht]
      rfl
  | case3 => cases h
  | case4 offset rest comment behind hc ih =>
      obtain ⟨tail, ht, rfl⟩ := exceptMap_eq_ok.mp h
      rw [stripComments_block _ hc, ih ht]
      rfl
  | case5 offset c rest hl hb ih =>
      obtain ⟨tail, ht, rfl⟩ := exceptMap_eq_ok.mp h
      rw [stripComments_kept _ hl hb, ih ht]
      rfl

end ShaderBridge
