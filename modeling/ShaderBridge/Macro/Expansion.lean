import ShaderBridge.Macro.Piece
import ShaderBridge.Macro.Table

/-!
Macro expansion. A macro is replaced by its body, in which the arguments of the use take the place
of the parameters, and the replacement is read again with the macro itself hidden.

The recursion ends because every body is expanded with one more name of the table hidden, and every
argument is shorter than the text that it was written in. No bound on the number of steps is needed.
-/

namespace ShaderBridge

/-- Why a text cannot be expanded. -/
inductive ExpansionError where
  | unterminatedInvocation (name : String)
  | wrongArity (name : String)
deriving DecidableEq, Repr

def ExpansionError.message : ExpansionError → String
  | unterminatedInvocation name => "Unterminated invocation of macro '" ++ name ++ "'"
  | wrongArity name => "Inconsistent macro arity for '" ++ name ++ "'"

/-- Puts a text in front of the first argument. -/
def prependToFirst (text : List Char) : List (List Char) → List (List Char)
  | [] => [text]
  | arg :: args => (text ++ arg) :: args

/-- The arguments up to the parenthesis that closes an invocation, and the pieces after it. Commas
inside inner parentheses, of which `depth` are open, separate nothing. -/
def arguments? (depth : Nat) : List Piece → Option (List (List Char) × List Piece)
  | [] => none
  | p :: ps =>
    if depth = 0 ∧ p.isChar ')' then some ([[]], ps)
    else if depth = 0 ∧ p.isChar ',' then
      (arguments? 0 ps).map fun (args, rest) => ([] :: args, rest)
    else
      let depth :=
        if p.isChar '(' then depth + 1 else if p.isChar ')' then depth - 1 else depth
      (arguments? depth ps).map fun (args, rest) => (prependToFirst p.text args, rest)

/-- The arguments as they count: without blanks around them, and none where a macro without
parameters is given nothing. -/
def givenArguments (params : List String) (args : List (List Char)) : List (List Char) :=
  let args := args.map trim
  if params = [] ∧ args = [[]] then [] else args

theorem length_le_of_mem_givenArguments {params : List String} {args : List (List Char)} {n : Nat}
    (h : ∀ a ∈ args, a.length ≤ n) : ∀ a ∈ givenArguments params args, a.length ≤ n := by
  intro a hm
  have hm : a ∈ args.map trim := by
    simp only [givenArguments] at hm
    split at hm
    · simp at hm
    · exact hm
  obtain ⟨b, hb, rfl⟩ := List.mem_map.mp hm
  exact Nat.le_trans (length_trim_le b) (h b hb)

/-- A macro in use: its name and definition, the arguments, and the pieces behind the use. -/
structure MacroUse where
  name : String
  definition : MacroDefinition
  args : List (List Char)
  rest : List Piece

/-- The use of a macro that opens with the piece `p`, if that is one. The name of a macro with
parameters stands for itself where no arguments follow. -/
def macroUse? (t : MacroTable) (hidden : List String) (p : Piece) (ps : List Piece) :
    Except ExpansionError (Option MacroUse) :=
  match if p.kind = .word ∧ p.name ∉ hidden then t.find? p.name else none with
  | none => .ok none
  | some definition =>
    match definition.params with
    | none => .ok (some ⟨p.name, definition, [], ps⟩)
    | some params =>
      match Piece.next? ps with
      | none => .ok none
      | some (q, qs) =>
        if q.isChar '(' then
          match arguments? 0 qs with
          | none => .error (.unterminatedInvocation p.name)
          | some (args, rest) =>
            let args := givenArguments params args
            if args.length = params.length then .ok (some ⟨p.name, definition, args, rest⟩)
            else .error (.wrongArity p.name)
        else .ok none

/-- An argument as it was written, and what it expands to. -/
structure Argument where
  raw : List Char
  expanded : Except ExpansionError (List Char)

/-- The parameter that a piece names. -/
def parameter? (arguments : List (String × Argument)) (p : Piece) : Option Argument :=
  if p.kind = .word then arguments.lookup p.name else none

/-- The parameter that follows, blanks aside, and the pieces behind it. -/
def nextParameter? (arguments : List (String × Argument)) (ps : List Piece) :
    Option (Argument × List Piece) := do
  let (p, rest) ← Piece.next? ps
  let argument ← parameter? arguments p
  return (argument, rest)

/-- Whether the next piece that is not blank is the pasting operator. -/
def pasteFollows (ps : List Piece) : Bool :=
  (Piece.next? ps).any fun (p, _) => p.isPaste

theorem length_of_nextParameter? {arguments : List (String × Argument)} {ps rest : List Piece}
    {a : Argument} (h : nextParameter? arguments ps = some (a, rest)) :
    rest.length < ps.length := by
  simp only [nextParameter?, Option.bind_eq_bind, Option.bind_eq_some_iff, Option.pure_def,
    Option.some.injEq, Prod.mk.injEq, Prod.exists] at h
  obtain ⟨p, rest', hn, _, _, rfl, rfl⟩ := h
  exact Piece.length_of_next? hn

/-- The body of a macro with arguments in the place of parameters. An argument stays as it was
written next to a pasting operator and behind a `#`, which vanishes; elsewhere it is expanded.
`afterPaste` says whether the last piece that was not blank is a pasting operator. -/
def substitute (arguments : List (String × Argument)) (afterPaste : Bool) (ps : List Piece) :
    Except ExpansionError (List Char) :=
  match ps with
  | [] => .ok []
  | p :: ps =>
    match _h : if p.isChar '#' then nextParameter? arguments ps else none with
    | some (a, rest) => (a.raw ++ ·) <$> substitute arguments false rest
    | none => do
      let text ←
        match parameter? arguments p with
        | some a => if afterPaste || pasteFollows ps then .ok a.raw else a.expanded
        | none => .ok p.text
      (text ++ ·) <$> substitute arguments (if p.isSpace then afterPaste else p.isPaste) ps
termination_by ps.length
decreasing_by
  · split at _h
    · have := length_of_nextParameter? _h
      simp; omega
    · simp at _h
  · simp

/-- Takes out every pasting operator together with the blanks around it. -/
def paste (cs : List Char) : List Char :=
  match _h : cutAt? ['#', '#'] cs with
  | none => cs
  | some (before, rest) => trimEnd before ++ paste (trimStart rest)
termination_by cs.length
decreasing_by
  have h1 : (trimStart rest).length ≤ rest.length := (List.dropWhile_sublist _).length_le
  have h2 := length_of_cutAt? _h
  simp at h2
  omega

theorem arguments?_rest {depth : Nat} {ps rest : List Piece} {args : List (List Char)}
    (h : arguments? depth ps = some (args, rest)) :
    rest <:+ ps ∧ ∀ a ∈ args, a.length ≤ (Piece.textOf ps).length := by
  induction ps generalizing depth args with
  | nil => simp [arguments?] at h
  | cons p ps ih =>
    simp only [arguments?] at h
    split at h
    · simp only [Option.some.injEq, Prod.mk.injEq] at h
      obtain ⟨rfl, rfl⟩ := h
      exact ⟨List.suffix_cons _ _, by simp⟩
    · split at h
      · simp only [Option.map_eq_some_iff, Prod.mk.injEq, Prod.exists] at h
        obtain ⟨args', rest', h, rfl, rfl⟩ := h
        obtain ⟨hr, ha⟩ := ih h
        refine ⟨hr.trans (List.suffix_cons _ _), ?_⟩
        intro a hm
        rcases List.mem_cons.mp hm with rfl | hm
        · simp
        · have := ha a hm
          simp; omega
      · simp only [Option.map_eq_some_iff, Prod.mk.injEq, Prod.exists] at h
        obtain ⟨args', rest', h, rfl, rfl⟩ := h
        obtain ⟨hr, ha⟩ := ih h
        refine ⟨hr.trans (List.suffix_cons _ _), ?_⟩
        intro a hm
        cases args' with
        | nil =>
          simp only [prependToFirst, List.mem_singleton] at hm
          subst hm
          simp
        | cons b bs =>
          rcases List.mem_cons.mp hm with rfl | hm
          · have := ha b (by simp)
            simp; omega
          · have := ha a (by simp [hm])
            simp; omega

/-- What a use of a macro tells: its name is in the table and not hidden, its arguments are shorter
than the text of the use, and the pieces behind it are pieces behind its name. -/
structure MacroUse.FoundIn (t : MacroTable) (hidden : List String) (p : Piece) (ps : List Piece)
    (u : MacroUse) : Prop where
  name_eq : u.name = p.name
  mem_names : u.name ∈ t.names
  not_hidden : u.name ∉ hidden
  rest_suffix : u.rest <:+ ps
  args_shorter : ∀ a ∈ u.args, a.length < (Piece.textOf (p :: ps)).length

theorem macroUse?_found {t : MacroTable} {hidden : List String} {p : Piece} {ps : List Piece}
    {u : MacroUse} (h : macroUse? t hidden p ps = .ok (some u)) : u.FoundIn t hidden p ps := by
  unfold macroUse? at h
  split at h
  · simp at h
  · rename_i d hd
    split at hd
    · rename_i hw
      have hn := MacroTable.mem_names_of_find? hd
      split at h
      · simp only [Except.ok.injEq, Option.some.injEq] at h
        subst h
        exact ⟨rfl, hn, hw.2, List.suffix_refl _, by simp⟩
      · split at h
        · simp at h
        · rename_i q qs hq
          split at h
          · rename_i hparen
            split at h
            · simp at h
            · rename_i args rest ha
              dsimp only at h
              split at h
              · simp only [Except.ok.injEq, Option.some.injEq] at h
                subst h
                obtain ⟨hr, hl⟩ := arguments?_rest ha
                have hs : q :: qs <:+ ps := Piece.next?_suffix hq
                refine ⟨rfl, hn, hw.2, hr.trans ((List.suffix_cons _ _).trans hs), ?_⟩
                obtain ⟨front, rfl⟩ := hs
                have hq1 : q.text = ['('] := by simpa [Piece.isChar] using hparen
                intro a hm
                have := length_le_of_mem_givenArguments hl a hm
                simp [Piece.textOf_append, hq1]
                omega
              · simp at h
          · simp at h
    · simp at hd

/-- The number of names in the table that are not hidden. -/
def freshNames (t : MacroTable) (hidden : List String) : Nat :=
  (t.names.filter (· ∉ hidden)).length

theorem freshNames_cons_lt {t : MacroTable} {hidden : List String} {name : String}
    (h : name ∈ t.names) (hh : name ∉ hidden) :
    freshNames t (name :: hidden) < freshNames t hidden := by
  have key (xs : List String) (hm : name ∈ xs) :
      (xs.filter (· ∉ name :: hidden)).length < (xs.filter (· ∉ hidden)).length := by
    have le (xs : List String) :
        (xs.filter (· ∉ name :: hidden)).length ≤ (xs.filter (· ∉ hidden)).length := by
      simp only [← List.countP_eq_length_filter]
      refine List.countP_mono_left ?_
      intro x _ hx
      simp at hx ⊢
      exact hx.2
    induction xs with
    | nil => simp at hm
    | cons x xs ih =>
      by_cases hx : x = name
      · subst hx
        have := le xs
        simp [hh]
        simp at this
        omega
      · have := ih (by simpa [Ne.symm hx] using hm)
        by_cases hy : x ∈ hidden <;> simp_all
  exact key t.names h

/-- The name that stands for the number of the current line. -/
def Piece.isLineName (p : Piece) : Bool :=
  p.name == "__LINE__"

/-- The arguments of a use, under the names of the parameters. -/
def MacroUse.bind (u : MacroUse) (expanded : List (Except ExpansionError (List Char))) :
    List (String × Argument) :=
  (u.definition.params.getD []).zip ((u.args.zip expanded).map fun (raw, value) => ⟨raw, value⟩)

/-- The body of the macro in use, ready to be read again. -/
def MacroUse.body (u : MacroUse) (expanded : List (Except ExpansionError (List Char))) :
    Except ExpansionError (List Char) :=
  paste <$> substitute (u.bind expanded) false (pieces u.definition.body)

/-- Replaces every macro that is not hidden. -/
def expand (t : MacroTable) (line : Nat) (hidden : List String) (ps : List Piece) :
    Except ExpansionError (List Char) :=
  match ps with
  | [] => .ok []
  | p :: ps =>
    if p.isLineName then ((decimal line).toList ++ ·) <$> expand t line hidden ps
    else
      match _h : macroUse? t hidden p ps with
      | .error e => .error e
      | .ok none => (p.text ++ ·) <$> expand t line hidden ps
      | .ok (some u) => do
        let body ← u.body (u.args.attach.map fun a => expand t line hidden (pieces a.1))
        let replaced ← expand t line (u.name :: hidden) (pieces body)
        (replaced ++ ·) <$> expand t line hidden u.rest
termination_by (freshNames t hidden, (Piece.textOf ps).length, ps.length)
decreasing_by
  · apply Prod.Lex.right
    by_cases hp : p.text = []
    · simp [hp]; exact Prod.Lex.right _ (by simp)
    · exact Prod.Lex.left _ _ (by have := List.length_pos_iff.mpr hp; simp; omega)
  · apply Prod.Lex.right
    by_cases hp : p.text = []
    · simp [hp]; exact Prod.Lex.right _ (by simp)
    · exact Prod.Lex.left _ _ (by have := List.length_pos_iff.mpr hp; simp; omega)
  · have := (macroUse?_found _h).args_shorter a.1 a.2
    exact Prod.Lex.right _ (Prod.Lex.left _ _ (by rwa [Piece.textOf_pieces]))
  · have found := macroUse?_found _h
    exact Prod.Lex.left _ _ (freshNames_cons_lt found.mem_names found.not_hidden)
  · obtain ⟨front, hf⟩ := (macroUse?_found _h).rest_suffix
    apply Prod.Lex.right
    by_cases hp : p.text ++ Piece.textOf front = []
    · have : Piece.textOf (p :: ps) = Piece.textOf u.rest := by
        simp [← hf, Piece.textOf_append] at hp ⊢
        simp [hp]
      rw [this]
      exact Prod.Lex.right _ (by simp only [← hf, List.length_append, List.length_cons]; omega)
    · refine Prod.Lex.left _ _ ?_
      have := List.length_pos_iff.mpr hp
      simp [← hf, Piece.textOf_append] at this ⊢
      omega

/-- What a use of a macro is replaced by. -/
def MacroUse.replacement (u : MacroUse) (t : MacroTable) (line : Nat) (hidden : List String) :
    Except ExpansionError (List Char) := do
  let body ← u.body (u.args.map fun a => expand t line hidden (pieces a))
  expand t line (u.name :: hidden) (pieces body)

/-- Expands source lines of which the first has the given number. Line feeds inside a use of a
macro that its replacement does not have are owed, and paid at the end of the line, so that
what follows keeps its line number. An error comes with the number of its line. -/
def expandLines (t : MacroTable) (line owed : Nat) (ps : List Piece) :
    Except (ExpansionError × Nat) (List Char) :=
  match ps with
  | [] => .ok (List.replicate owed '\n')
  | p :: ps =>
    if p.isSpace then
      match lineFeeds p.text with
      | 0 => (p.text ++ ·) <$> expandLines t line owed ps
      | n + 1 =>
        (List.replicate owed '\n' ++ p.text ++ ·) <$> expandLines t (line + (n + 1)) 0 ps
    else if p.isLineName then ((decimal line).toList ++ ·) <$> expandLines t line owed ps
    else
      match _h : macroUse? t [] p ps with
      | .error e => .error (e, line)
      | .ok none => (p.text ++ ·) <$> expandLines t line owed ps
      | .ok (some u) =>
        match u.replacement t line [] with
        | .error e => .error (e, line)
        | .ok replaced =>
          let inside := Piece.feeds ps - Piece.feeds u.rest
          (replaced ++ ·) <$>
            expandLines t (line + inside) (owed + (inside - lineFeeds replaced)) u.rest
termination_by ps.length
decreasing_by
  · simp
  · simp
  · simp
  · simp
  · have := (macroUse?_found _h).rest_suffix.length_le
    simp; omega

/-- Expands a run of source lines. Where there is nothing to replace the text is kept as it is. -/
def expandSource (t : MacroTable) (line : Nat) (text : List Char) :
    Except (ExpansionError × Nat) (List Char) :=
  if t.isEmpty && (cutAt? "__LINE__".toList text).isNone then .ok text
  else expandLines t line 0 (pieces text)

end ShaderBridge
