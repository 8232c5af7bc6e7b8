import Mathlib.Logic.Relation
import ShaderBridge.Proofs.Macro.Steps

/-!
Macro expansion as a machine that looks at one piece at a time. All texts that are being expanded
share one list of hidden names: the name of a macro is put into it when its body begins to be
expanded, and taken out when that ends. A stack holds what waits for the expansion of another text.

The machine comes to the end of every text, with just what expansion yields for it and with the list
of hidden names that it began with, whether there is an error or not.
-/

namespace ShaderBridge

namespace Expansion

open Relation

/-! ### States -/

/-- A text in the course of its expansion: whether it consists of source lines, the line feeds that
are owed then, what has been written, and the pieces to come. -/
structure Scan where
  text : List Char
  top : Bool
  owed : Nat
  out : List Char
  rest : List Piece

/-- A body in the course of being filled with arguments. -/
structure Fill where
  use : MacroUse
  afterPaste : Bool
  out : List Char
  rest : List Piece

/-- What waits: a text for the filled body of a macro that it uses, a body for the expansion of an
argument, and a text for the expansion of a body. -/
inductive Frame where
  | call (name : String) (inside : Nat) (scan : Scan)
  | argument (fill : Fill)
  | body (name : String) (inside : Nat) (scan : Scan)

inductive Control where
  | scanning (scan : Scan)
  | filling (fill : Fill)
  | returning (result : Except ExpansionError (List Char))

structure State where
  hidden : List String
  line : Nat
  control : Control
  stack : List Frame

/-! ### Steps -/

def Scan.start (top : Bool) (text : List Char) : Scan :=
  ⟨text, top, 0, [], pieces text⟩

def Scan.write (a : Scan) (text : List Char) (rest : List Piece) : Scan :=
  { a with out := a.out ++ text, rest }

def Fill.start (u : MacroUse) : Fill :=
  ⟨u, false, [], pieces u.definition.body⟩

def Fill.write (f : Fill) (text : List Char) (afterPaste : Bool) (rest : List Piece) : Fill :=
  { f with out := f.out ++ text, afterPaste, rest }

/-- The arguments as they were written. -/
def Fill.arguments (f : Fill) : List (String × Argument) :=
  f.use.bind (f.use.args.map .ok)

namespace State

def goto (s : State) (control : Control) : State :=
  { s with control }

def push (s : State) (frame : Frame) (control : Control) : State :=
  { s with control, stack := frame :: s.stack }

/-- The next piece of a text. -/
def scan (t : MacroTable) (s : State) (a : Scan) : State :=
  match a.rest with
  | [] => s.goto (.returning (.ok (a.out ++ List.replicate a.owed '\n')))
  | p :: ps =>
    if a.top && p.isSpace then
      match lineFeeds p.text with
      | 0 => s.goto (.scanning (a.write p.text ps))
      | n + 1 =>
        let a := a.write (List.replicate a.owed '\n' ++ p.text) ps
        { s with line := s.line + (n + 1), control := .scanning { a with owed := 0 } }
    else if p.isLineName then s.goto (.scanning (a.write (decimal s.line).toList ps))
    else
      match macroUse? t s.hidden p ps with
      | .error e => s.goto (.returning (.error e))
      | .ok none => s.goto (.scanning (a.write p.text ps))
      | .ok (some u) =>
        let inside := Piece.feeds ps - Piece.feeds u.rest
        s.push (.call u.name inside { a with rest := u.rest }) (.filling (.start u))

/-- The next piece of a body. -/
def fill (s : State) (f : Fill) : State :=
  match f.rest with
  | [] => s.goto (.returning (.ok f.out))
  | p :: ps =>
    match if p.isChar '#' then nextParameter? f.arguments ps else none with
    | some (a, rest) => s.goto (.filling (f.write a.raw false rest))
    | none =>
      let afterPaste := if p.isSpace then f.afterPaste else p.isPaste
      match parameter? f.arguments p with
      | none => s.goto (.filling (f.write p.text afterPaste ps))
      | some a =>
        if f.afterPaste || pasteFollows ps then
          s.goto (.filling (f.write a.raw afterPaste ps))
        else s.push (.argument { f with afterPaste, rest := ps }) (.scanning (.start false a.raw))

/-- A text goes on behind the expansion of a body. Line feeds inside the use are owed at the top. -/
def goOn (s : State) (inside : Nat) (a : Scan) (replaced : List Char) : State :=
  if a.top then
    { s with
      line := s.line + inside
      control := .scanning { a.write replaced a.rest with
        owed := a.owed + (inside - lineFeeds replaced) } }
  else s.goto (.scanning (a.write replaced a.rest))

/-- What waited is given a result. An error is passed on. -/
def resume (s : State) (frame : Frame) (result : Except ExpansionError (List Char)) : State :=
  match frame, result with
  | .call name inside a, .ok body =>
    { s with
      hidden := name :: s.hidden
      control := .scanning (.start false (paste body))
      stack := .body name inside a :: s.stack }
  | .argument f, .ok text => s.goto (.filling (f.write text f.afterPaste f.rest))
  | .body _ inside a, .ok replaced => { s with hidden := s.hidden.tail }.goOn inside a replaced
  | .body .., .error e => { s with hidden := s.hidden.tail, control := .returning (.error e) }
  | _, .error e => s.goto (.returning (.error e))

/-- One step of the machine, which stops where nothing waits for a result. -/
def step? (t : MacroTable) (s : State) : Option State :=
  match s.control with
  | .scanning a => some (s.scan t a)
  | .filling f => some (s.fill f)
  | .returning result =>
    match s.stack with
    | [] => none
    | frame :: stack => some ({ s with stack }.resume frame result)

end State

/-- A state is reached from another one after finitely many steps. -/
def Reaches (t : MacroTable) : State → State → Prop :=
  ReflTransGen fun s s' => s.step? t = some s'

/-! ### Filling a body -/

section Filling

variable {u : MacroUse} (f g : List Char → Except ExpansionError (List Char)) {p : Piece}
  {ps : List Piece}

theorem lookup_zip_map {α β γ : Type} [BEq α] (h : β → γ) (name : α) (names : List α)
    (values : List β) :
    (names.zip (values.map h)).lookup name = ((names.zip values).lookup name).map h := by
  induction names generalizing values with
  | nil => rfl
  | cons n names ih =>
      cases values with
      | nil => rfl
      | cons value values =>
          simp only [List.map_cons, List.zip_cons_cons, List.lookup_cons, ih]
          split <;> rfl

theorem bind_map (u : MacroUse) : u.bind (u.args.map f) =
    (u.definition.params.getD []).zip (u.args.map fun raw => ⟨raw, f raw⟩) := by
  unfold MacroUse.bind
  congr 1
  generalize u.args = args
  induction args with
  | nil => rfl
  | cons a args ih => simp only [List.map_cons, List.zip_cons_cons, ih]

theorem parameter?_bind : parameter? (u.bind (u.args.map f)) p =
    (parameter? (u.bind (u.args.map g)) p).map fun a => ⟨a.raw, f a.raw⟩ := by
  unfold parameter?
  rw [bind_map, bind_map]
  split
  · simp only [lookup_zip_map, Option.map_map]
    rfl
  · rfl

theorem nextParameter?_bind : nextParameter? (u.bind (u.args.map f)) ps =
    (nextParameter? (u.bind (u.args.map g)) ps).map fun (a, rest) => (⟨a.raw, f a.raw⟩, rest) := by
  unfold nextParameter?
  cases Piece.next? ps with
  | none => rfl
  | some next =>
      simp only [Option.bind_eq_bind, Option.bind_some, parameter?_bind f g]
      cases parameter? (u.bind (u.args.map g)) next.1 <;> rfl

theorem raw_mem_args {a : Argument} (h : parameter? (u.bind (u.args.map f)) p = some a) :
    a.raw ∈ u.args := by
  unfold parameter? at h
  rw [bind_map] at h
  split at h
  · rw [lookup_zip_map, Option.map_eq_some_iff] at h
    obtain ⟨raw, hraw, rfl⟩ := h
    obtain ⟨before, after, hzip, _⟩ := List.lookup_eq_some_iff.1 hraw
    have hmem : (p.name, raw) ∈ (u.definition.params.getD []).zip u.args := by
      rw [hzip]
      simp
    exact (List.of_mem_zip hmem).2
  · cases h

theorem expanded_eq {a : Argument} (h : parameter? (u.bind (u.args.map f)) p = some a) :
    a.expanded = f a.raw := by
  have hself := (parameter?_bind f f).symm.trans h
  rw [h] at hself
  exact (congrArg Argument.expanded (Option.some.inj hself)).symm

/-! The steps of filling, where it is known what the expanded arguments are. -/

variable {t : MacroTable} {line : Nat} {hidden : List String} {stack : List Frame}
  {afterPaste : Bool} {out : List Char} {a : Argument} {rest : List Piece}

theorem hash_bind : (if p.isChar '#' then nextParameter? (u.bind (u.args.map .ok)) ps else none) =
    (if p.isChar '#' then nextParameter? (u.bind (u.args.map f)) ps else none).map
      fun (a, rest) => (⟨a.raw, .ok a.raw⟩, rest) := by
  split
  · exact nextParameter?_bind .ok f
  · rfl

theorem step?_raw
    (h : (if p.isChar '#' then nextParameter? (u.bind (u.args.map f)) ps else none) =
      some (a, rest)) :
    State.step? t ⟨hidden, line, .filling ⟨u, afterPaste, out, p :: ps⟩, stack⟩ =
      some ⟨hidden, line, .filling ⟨u, false, out ++ a.raw, rest⟩, stack⟩ := by
  have hnext := (hash_bind f).trans (congrArg _ h)
  simp only [State.step?, State.fill, Fill.arguments, hnext]
  rfl

variable (h : (if p.isChar '#' then nextParameter? (u.bind (u.args.map f)) ps else none) = none)

include h

theorem step?_kept (ha : parameter? (u.bind (u.args.map f)) p = none) :
    State.step? t ⟨hidden, line, .filling ⟨u, afterPaste, out, p :: ps⟩, stack⟩ =
      some ⟨hidden, line, .filling
        ⟨u, if p.isSpace then afterPaste else p.isPaste, out ++ p.text, ps⟩, stack⟩ := by
  have hnext := (hash_bind f).trans (congrArg _ h)
  have hparameter := (parameter?_bind .ok f).trans (congrArg _ ha)
  simp only [State.step?, State.fill, Fill.arguments, hnext, hparameter, Option.map_none]
  rfl

theorem step?_pasted (ha : parameter? (u.bind (u.args.map f)) p = some a)
    (hpaste : (afterPaste || pasteFollows ps) = true) :
    State.step? t ⟨hidden, line, .filling ⟨u, afterPaste, out, p :: ps⟩, stack⟩ =
      some ⟨hidden, line, .filling
        ⟨u, if p.isSpace then afterPaste else p.isPaste, out ++ a.raw, ps⟩, stack⟩ := by
  have hnext := (hash_bind f).trans (congrArg _ h)
  have hparameter := (parameter?_bind .ok f).trans (congrArg _ ha)
  simp only [State.step?, State.fill, Fill.arguments, hnext, hparameter, Option.map_none,
    Option.map_some, hpaste, if_true]
  rfl

theorem step?_argument (ha : parameter? (u.bind (u.args.map f)) p = some a)
    (hpaste : (afterPaste || pasteFollows ps) = false) :
    State.step? t ⟨hidden, line, .filling ⟨u, afterPaste, out, p :: ps⟩, stack⟩ =
      some ⟨hidden, line, .scanning (.start false a.raw), .argument
        ⟨u, if p.isSpace then afterPaste else p.isPaste, out, ps⟩ :: stack⟩ := by
  have hnext := (hash_bind f).trans (congrArg _ h)
  have hparameter := (parameter?_bind .ok f).trans (congrArg _ ha)
  simp only [State.step?, State.fill, Fill.arguments, hnext, hparameter, Option.map_none,
    Option.map_some, hpaste]
  rfl

end Filling

/-! ### Where the machine comes to -/

section Runs

variable {t : MacroTable} {line : Nat} {hidden : List String} {stack : List Frame} {u : MacroUse}
  {s s' s'' : State}

theorem Reaches.refl (s : State) : Reaches t s s :=
  ReflTransGen.refl

theorem Reaches.step (h : s.step? t = some s') (h' : Reaches t s' s'') : Reaches t s s'' :=
  .head h h'

theorem Reaches.trans (h : Reaches t s s') (h' : Reaches t s' s'') : Reaches t s s'' :=
  ReflTransGen.trans h h'

/-- The machine comes to the end of a text with what the text expands to, and nothing else has
changed: the same names are hidden, and the same waits for the result. -/
def Returns (t : MacroTable) (line : Nat) (hidden : List String) (text : List Char) : Prop :=
  ∀ stack, Reaches t ⟨hidden, line, .scanning (.start false text), stack⟩
    ⟨hidden, line, .returning (expand t line hidden (pieces text)), stack⟩

theorem reaches_filled (hargs : ∀ raw ∈ u.args, Returns t line hidden raw) (afterPaste : Bool)
    (ps : List Piece) (out : List Char) :
    Reaches t ⟨hidden, line, .filling ⟨u, afterPaste, out, ps⟩, stack⟩
      ⟨hidden, line, .returning ((out ++ ·) <$>
        substitute (u.bind (u.args.map fun a => expand t line hidden (pieces a))) afterPaste ps),
        stack⟩ := by
  let f : List Char → Except ExpansionError (List Char) := fun a => expand t line hidden (pieces a)
  induction afterPaste, ps using substitute.induct (u.bind (u.args.map f)) generalizing out with
  | case1 afterPaste =>
      refine .step rfl ?_
      rw [substitute]
      change Reaches t _ ⟨_, _, .returning (.ok (out ++ [])), _⟩
      rw [List.append_nil]
      exact .refl _
  | case2 afterPaste p ps a rest h ih =>
      rw [substitute_raw h, append_map_append]
      exact .step (step?_raw f h) (ih _)
  | case3 afterPaste p ps h a ha hpaste ih =>
      rw [substitute_piece h, ha]
      simp only [hpaste, if_true]
      exact .step (step?_pasted f h ha hpaste) (append_map_append out a.raw _ ▸ ih _)
  | case4 afterPaste p ps h a ha hpaste ih =>
      have hreturns := hargs a.raw (raw_mem_args f ha)
      rw [substitute_piece h, ha]
      simp only [hpaste, expanded_eq f ha, f]
      refine .step (step?_argument f h ha (by simpa using hpaste)) ((hreturns _).trans ?_)
      cases expand t line hidden (pieces a.raw) with
      | error e => exact .step rfl (.refl _)
      | ok text => exact .step rfl (append_map_append out text _ ▸ ih _)
  | case5 afterPaste p ps h ha ih =>
      rw [substitute_piece h, ha]
      exact .step (step?_kept f h ha) (append_map_append out p.text _ ▸ ih _)

theorem reaches_replaced {p : Piece} {ps : List Piece} (top : Bool) (owed : Nat)
    (text out : List Char) (stack : List Frame) (hs : (top && p.isSpace) = false)
    (hl : p.isLineName = false) (hu : macroUse? t hidden p ps = .ok (some u))
    (hargs : ∀ raw ∈ u.args, Returns t line hidden raw)
    (hbody : ∀ body, Returns t line (u.name :: hidden) body) :
    Reaches t ⟨hidden, line, .scanning ⟨text, top, owed, out, p :: ps⟩, stack⟩
      (match u.replacement t line hidden with
      | .error e => ⟨hidden, line, .returning (.error e), stack⟩
      | .ok replaced =>
        State.goOn ⟨hidden, line, .returning (.ok replaced), stack⟩
          (Piece.feeds ps - Piece.feeds u.rest) ⟨text, top, owed, out, u.rest⟩ replaced) := by
  have hstep : State.step? t ⟨hidden, line, .scanning ⟨text, top, owed, out, p :: ps⟩, stack⟩ =
      some ⟨hidden, line, .filling (.start u), .call u.name
        (Piece.feeds ps - Piece.feeds u.rest) ⟨text, top, owed, out, u.rest⟩ :: stack⟩ := by
    simp only [State.step?, State.scan, hs, hl, hu]
    rfl
  refine .step hstep ((reaches_filled hargs _ _ _).trans ?_)
  rw [nil_map_append]
  unfold MacroUse.replacement MacroUse.body
  cases substitute (u.bind (u.args.map fun a => expand t line hidden (pieces a))) false
      (pieces u.definition.body) with
  | error e => exact .step rfl (.refl _)
  | ok body =>
      refine .step rfl ((hbody (paste body) _).trans ?_)
      change Reaches t _ (match expand t line (u.name :: hidden) (pieces (paste body)) with
        | .error e => _
        | .ok replaced => _)
      cases expand t line (u.name :: hidden) (pieces (paste body)) with
      | error e => exact .step rfl (.refl _)
      | ok replaced => exact .step rfl (.refl _)

theorem reaches_expanded (t : MacroTable) (line : Nat) (hidden : List String) (ps : List Piece)
    (text out : List Char) (stack : List Frame) :
    Reaches t ⟨hidden, line, .scanning ⟨text, false, 0, out, ps⟩, stack⟩
      ⟨hidden, line, .returning ((out ++ ·) <$> expand t line hidden ps), stack⟩ := by
  induction hidden, ps using expand.induct t generalizing text out stack with
  | case1 hidden =>
      rw [expand_nil]
      exact .step rfl (.refl _)
  | case2 hidden p ps hl ih =>
      rw [expand_lineName t line hidden hl, append_map_append]
      refine .step ?_ (ih text _ stack)
      simp only [State.step?, State.scan, hl]
      rfl
  | case3 hidden p ps hl e hu =>
      rw [expand_error t line hidden (by simpa using hl) hu]
      refine .step ?_ (.refl _)
      simp only [State.step?, State.scan, hl, hu]
      rfl
  | case4 hidden p ps hl hu ih =>
      rw [expand_kept t line hidden (by simpa using hl) hu, append_map_append]
      refine .step ?_ (ih text _ stack)
      simp only [State.step?, State.scan, hl, hu]
      rfl
  | case5 hidden p ps hl u hu iharg ihbody ihrest =>
      have hargs : ∀ raw ∈ u.args, Returns t line hidden raw := by
        intro raw hraw stack
        have h := iharg ⟨raw, hraw⟩ raw [] stack
        rwa [nil_map_append] at h
      have hbody : ∀ body, Returns t line (u.name :: hidden) body := by
        intro body stack
        have h := ihbody body body [] stack
        rwa [nil_map_append] at h
      have hl : p.isLineName = false := by simpa using hl
      rw [expand_use t line hidden hl hu]
      refine (reaches_replaced false 0 text out stack rfl hl hu hargs hbody).trans ?_
      cases u.replacement t line hidden with
      | error e => exact .refl _
      | ok replaced => exact append_map_append out replaced _ ▸ ihrest text _ stack

/-- Whatever is hidden and whatever waits, the machine comes to the end of every text. -/
theorem returns (t : MacroTable) (line : Nat) (hidden : List String) (text : List Char) :
    Returns t line hidden text := by
  intro stack
  have h := reaches_expanded t line hidden (pieces text) text [] stack
  rwa [nil_map_append] at h

/-- Source lines come to an end. An error is met on the line that it is reported for. -/
def Ends (t : MacroTable) (s : State) (stack : List Frame)
    (r : Except (ExpansionError × Nat) (List Char)) : Prop :=
  ∃ line, Reaches t s ⟨[], line, .returning (r.mapError Prod.fst), stack⟩ ∧
    ∀ e place, r = .error (e, place) → line = place

theorem Ends.of_reaches {r : Except (ExpansionError × Nat) (List Char)} (h : Reaches t s s')
    (h' : Ends t s' stack r) : Ends t s stack r := by
  obtain ⟨line, hreaches, hline⟩ := h'
  exact ⟨line, h.trans hreaches, hline⟩

theorem Ends.step {r : Except (ExpansionError × Nat) (List Char)} (h : s.step? t = some s')
    (h' : Ends t s' stack r) : Ends t s stack r :=
  .of_reaches (.step h (.refl _)) h'

theorem ends_error (t : MacroTable) (line : Nat) (stack : List Frame) (e : ExpansionError) :
    Ends t ⟨[], line, .returning (.error e), stack⟩ stack (.error (e, line)) :=
  ⟨line, .refl _, by rintro _ _ ⟨⟩; rfl⟩

theorem ends_expandLines (line owed : Nat) (ps : List Piece) (text out : List Char)
    (stack : List Frame) : Ends t ⟨[], line, .scanning ⟨text, true, owed, out, ps⟩, stack⟩ stack
      ((out ++ ·) <$> expandLines t line owed ps) := by
  induction line, owed, ps using expandLines.induct t generalizing out with
  | case1 line owed =>
      rw [expandLines_nil]
      exact ⟨line, .step rfl (.refl _), nofun⟩
  | case2 line owed p ps hs hn ih =>
      rw [expandLines_blank t line owed hs hn, append_map_append]
      refine .step ?_ (ih _)
      simp only [State.step?, State.scan, hs, hn]
      rfl
  | case3 line owed p ps hs n hn ih =>
      rw [expandLines_feeds t line owed hs hn, append_map_append]
      refine .step ?_ (ih _)
      simp only [State.step?, State.scan, hs, hn]
      rfl
  | case4 line owed p ps hs hl ih =>
      rw [expandLines_lineName t line owed (by simpa using hs) hl, append_map_append]
      refine .step ?_ (ih _)
      simp only [State.step?, State.scan, hs, hl]
      rfl
  | case5 line owed p ps hs hl e hu =>
      rw [expandLines_error t line owed (by simpa using hs) (by simpa using hl) hu]
      refine .step ?_ (ends_error t line stack e)
      simp only [State.step?, State.scan, hs, hl, hu]
      rfl
  | case6 line owed p ps hs hl hu ih =>
      rw [expandLines_kept t line owed (by simpa using hs) (by simpa using hl) hu,
        append_map_append]
      refine .step ?_ (ih _)
      simp only [State.step?, State.scan, hs, hl, hu]
      rfl
  | case7 line owed p ps hs hl u hu e hr =>
      have hs : p.isSpace = false := by simpa using hs
      have hl : p.isLineName = false := by simpa using hl
      have hreplaced := reaches_replaced true owed text out stack hs hl hu
        (fun raw _ => returns t line [] raw) (returns t line [u.name])
      rw [hr] at hreplaced
      rw [expandLines_useError t line owed hs hl hu hr]
      exact .of_reaches hreplaced (ends_error t line stack e)
  | case8 line owed p ps hs hl u hu replaced hr inside ih =>
      have hs : p.isSpace = false := by simpa using hs
      have hl : p.isLineName = false := by simpa using hl
      have hreplaced := reaches_replaced true owed text out stack hs hl hu
        (fun raw _ => returns t line [] raw) (returns t line [u.name])
      rw [hr] at hreplaced
      rw [expandLines_use t line owed hs hl hu hr, append_map_append]
      exact .of_reaches hreplaced (ih (out ++ replaced))

end Runs

end Expansion

end ShaderBridge
