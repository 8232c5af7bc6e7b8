import ShaderBridge.Proofs.Lowering.Meeting
import ShaderBridge.Proofs.Shader.WellFormed

namespace ShaderBridge

open Hlsl

namespace Hlsl

variable {s : Shader} {temp : ExprId → Nat} {calls : List ExprId}

theorem lookup_of_nodup {entries : List (ExprId × Nat)} (h : (entries.map Prod.fst).Nodup)
    {entry : ExprId × Nat} (hentry : entry ∈ entries) :
    entries.lookup entry.1 = some entry.2 := by
  obtain ⟨before, after, rfl⟩ := List.append_of_mem hentry
  refine List.lookup_eq_some_iff.2 ⟨before, after, rfl, fun other hother => bne_iff_ne.2 ?_⟩
  rw [List.map_append, List.nodup_append] at h
  exact (h.2.2 _ (List.mem_map_of_mem hother) _ (List.mem_map_of_mem List.mem_cons_self)).symm

/-- Where no call is carried out twice, its result lies in one temporary. -/
theorem gives_of_adds {α : Type} {m : LowerM α} {P : (ExprId → Nat) → α → Prop}
    (h : ∀ temp, Adds temp [] m calls (P temp)) (hcalls : calls.Nodup) :
    Gives m [] calls.reverse fun a => ∃ temp, P temp a := by
  intro σ hσ
  have hempty : σ.hoisted = [] := List.map_eq_nil_iff.1 hσ
  obtain ⟨new, hnew, hhoisted, hP⟩ :=
    h (fun c => ((m.run σ).2.hoisted.lookup c).getD 0) σ (List.nil_subset _)
  have hdone : (m.run σ).2.done = calls.reverse := by
    rw [LoweringState.done, hhoisted, hempty, List.append_nil, hnew]
  have hnodup : (m.run σ).2.done.Nodup := hdone ▸ List.nodup_reverse.2 hcalls
  refine ⟨⟨_, hP fun entry hentry => ?_⟩, hdone⟩
  show ((m.run σ).2.hoisted.lookup entry.1).getD 0 = entry.2
  rw [lookup_of_nodup hnodup hentry, Option.getD_some]

theorem events_of_noFunction {p : Program} (h : NoFunction p) : p.events = [] := by
  refine List.flatMap_eq_nil_iff.2 fun d hd => ?_
  have hfunction := h d hd
  cases d <;> first | rfl | simp [Decl.isFunction] at hfunction

theorem events_flatten (ps : List Program) :
    Program.events ps.flatten = ps.flatMap Program.events := by
  rw [Program.events, List.flatten_eq_flatMap, List.flatMap_assoc]
  rfl

theorem adds_lowerFunctions (h : s.WellFormed) :
    Adds temp [] (s.functions.toList.mapM (s.lowerFunction s.storageFields))
      (s.plainDuties.filterMap Duty.call?) fun ps =>
      List.Forall₂ (s.NearlyMet temp) s.plainDuties (ps.flatMap Program.events) := by
  have hfunctions : Adds temp [] (s.functions.toList.mapM (s.lowerFunction s.storageFields)) _ _ :=
    adds_mapM fun id _ => adds_lowerFunction h id
  rw [Shader.plainDuties, List.filterMap_flatMap]
  exact hfunctions.imp fun ps hps => forall₂_flatMap hps fun _ _ hp => hp

end Hlsl

namespace Shader

variable {s : Shader} {options : Options} {temp : ExprId → Nat}

theorem exists_events (options : Options) {done : List ExprId} {P : List Program → Prop}
    (h : Gives (s.functions.toList.mapM (s.lowerFunction s.storageFields)) [] done P) :
    ∃ ps, P ps ∧ (s.toProgram options).events = ps.flatMap Program.events := by
  obtain ⟨⟨front, ps, hprogram, hfront, -, hps⟩, -⟩ := gives_lower options h {} rfl
  refine ⟨ps, hps, ?_⟩
  have happend : Program.events (front ++ ps.flatten) =
      front.events ++ Program.events ps.flatten := List.flatMap_append
  rw [toProgram, hprogram, happend, events_of_noFunction hfront, events_flatten, List.nil_append]

theorem nodup_temps (s : Shader) (options : Options) :
    ((s.toProgram options).events.flatMap Event.temps).Nodup := by
  have hfresh : Gives (s.functions.toList.mapM (s.lowerFunction s.storageFields)) [] _ fun ps =>
      ((ps.flatMap Program.events).flatMap Event.temps).Nodup ∧ _ :=
    gives_lowerFunctions.and fun σ _ =>
      (takes_lowerFunctions s.functions.toList σ List.nodup_nil (by simp)).1
  obtain ⟨ps, ⟨hnodup, -⟩, hevents⟩ := exists_events options hfresh
  rwa [hevents]

theorem exists_nearlyMet (h : s.WellFormed) (honce : (s.plainDuties.filterMap Duty.call?).Nodup)
    (options : Options) :
    ∃ temp, List.Forall₂ (s.NearlyMet temp) s.plainDuties (s.toProgram options).events := by
  obtain ⟨ps, ⟨temp, hmet⟩, hevents⟩ :=
    exists_events options (gives_of_adds (fun _ => adds_lowerFunctions h) honce)
  exact ⟨temp, hevents ▸ hmet⟩

theorem length_le_withCalls (l : List Duty) : l.length ≤ (l.flatMap s.withCalls).length := by
  induction l with
  | nil => exact Nat.le_refl _
  | cons d l ih =>
      have hd : 1 ≤ (s.withCalls d).length := by cases d <;> simp [withCalls]
      rw [List.flatMap_cons, List.length_cons, List.length_append]
      omega

theorem withCalls_of_length {l : List Duty} (h : (l.flatMap s.withCalls).length = l.length)
    {d : Duty} (hd : d ∈ l) : s.withCalls d = [d] := by
  induction l with
  | nil => cases hd
  | cons d' l ih =>
      have hle := s.length_le_withCalls l
      have hpos : 1 ≤ (s.withCalls d').length := by cases d' <;> simp [withCalls]
      rw [List.flatMap_cons, List.length_cons, List.length_append] at h
      rcases List.mem_cons.1 hd with rfl | hd
      · have hone : (s.withCalls d).length = 1 := by omega
        cases d with
        | aside e =>
            rw [withCalls, List.length_append, List.length_singleton] at hone
            rw [withCalls, List.length_eq_zero_iff.1 (Nat.succ.inj hone), List.nil_append]
        | _ => rfl
      · exact ih (by omega) hd

theorem withCalls_eq_self_iff {d : Duty} :
    s.withCalls d = [d] ↔ ∀ e, d = .aside e → s.atomicCalls e = [] := by
  cases d <;> simp [withCalls, carries]

theorem sublist_withCalls (l : List Duty) : l.Sublist (l.flatMap s.withCalls) := by
  induction l with
  | nil => exact .slnil
  | cons d l ih =>
      have hd : [d].Sublist (s.withCalls d) := by cases d <;> simp [withCalls]
      rw [List.flatMap_cons]
      exact hd.append ih

theorem metBy_of_nearly {duties : List Duty} {events : List Event}
    (h : List.Forall₂ (s.NearlyMet temp) duties events)
    (hplain : ∀ d ∈ duties, s.withCalls d = [d]) : List.Forall₂ (s.MetBy temp) duties events := by
  induction h with
  | nil => exact .nil
  | cons hd _ ih =>
      obtain ⟨hfirst, hrest⟩ := List.forall_mem_cons.1 hplain
      exact .cons (hd hfirst) (ih hrest)

theorem sublist_temps {duties : List Duty} {events : List Event}
    (h : List.Forall₂ (s.MetBy temp) duties events) :
    ((duties.filterMap Duty.call?).map temp).Sublist (events.flatMap Event.temps) := by
  induction h with
  | nil => exact .slnil
  | @cons d event duties events hd _ ih =>
      rw [List.flatMap_cons]
      cases hd with
      | carry =>
          exact (ih.trans (List.sublist_append_right _ _)).cons_cons _
      | _ => exact ih.trans (List.sublist_append_right _ _)

/-- A program carries out every atomic call ahead exactly where none stands at the start of a loop,
in a declaration that is a condition, behind a label or in the length of an array, and none stands
in two places. -/
theorem hoistsAtomics_iff (h : s.WellFormed) (options : Options) :
    s.HoistsAtomics options ↔ s.AtomicsAhead := by
  constructor
  · rintro ⟨⟨temp, hmet⟩, hfresh, -, -⟩
    have honce : (s.plainDuties.filterMap Duty.call?).Nodup :=
      (List.Nodup.of_map temp (hfresh.sublist (sublist_temps hmet))).sublist
        ((sublist_withCalls s.plainDuties).filterMap _)
    obtain ⟨temp', hnear⟩ := exists_nearlyMet h honce options
    refine ⟨honce, fun e he => ?_⟩
    have hlength : s.duties.length = s.plainDuties.length :=
      hmet.length_eq.trans hnear.length_eq.symm
    exact withCalls_eq_self_iff.1 (withCalls_of_length hlength he) e rfl
  · rintro ⟨honce, haside⟩
    obtain ⟨temp, hnear⟩ := exists_nearlyMet h honce options
    have hplain : ∀ d ∈ s.plainDuties, s.withCalls d = [d] := fun d hd =>
      withCalls_eq_self_iff.2 fun e he => haside e (he ▸ hd)
    have hduties : s.duties = s.plainDuties := by
      rw [duties, List.flatMap_congr hplain, ← List.map_eq_flatMap, List.map_id']
    refine ⟨⟨temp, ?_⟩, s.nodup_temps options, fun e call hcall => mem_atomicCallsWithin hcall,
      fun e before call after => h.atomicCalls_nested⟩
    rw [hduties]
    exact metBy_of_nearly hnear hplain

/-- The tokens of `shared uint s; uint f() { while (atomicAdd(s, atomicAdd(s, 1u)) < 4u) return
atomicOr(s, 2u); }`. -/
def nestedAtomics : List TokenKind :=
  [.keyword (.storage .shared), .keyword (.type (.scalar .uint)), .ident "s", .punct .semicolon,
    .keyword (.type (.scalar .uint)), .ident "f", .punct .leftParen, .punct .rightParen,
    .punct .leftBrace, .keyword (.word .whileLoop), .punct .leftParen, .ident "atomicAdd",
    .punct .leftParen, .ident "s", .punct .comma, .ident "atomicAdd", .punct .leftParen,
    .ident "s", .punct .comma, .number (.uint 1), .punct .rightParen, .punct .rightParen,
    .punct .lt, .number (.uint 4), .punct .rightParen, .keyword (.word .returnValue),
    .ident "atomicOr", .punct .leftParen, .ident "s", .punct .comma, .number (.uint 2),
    .punct .rightParen, .punct .semicolon, .punct .rightBrace, .endOfFile]

theorem exists_hoistsAtomics :
    ∃ s : Shader, s.Accepted ∧ s.WellFormed ∧ (s.plainDuties.filterMap Duty.call?).length = 3 ∧
      s.HoistsAtomics {} := by
  obtain ⟨s, hs, hfacts⟩ := Parse.exists_accepted (a := true)
    (f := fun s => decide (s.plainDuties.filterMap Duty.call? = [⟨19⟩, ⟨20⟩, ⟨25⟩]) &&
      decide (s.duties.length = s.plainDuties.length) &&
      s.exprs.toList.all fun e => e.items.isEmpty)
    (show (Parse.plainShader? .fragment nestedAtomics).map _ = _ by decide +kernel)
  simp only [Bool.and_eq_true, decide_eq_true_eq, List.all_eq_true, List.isEmpty_iff] at hfacts
  obtain ⟨⟨hcalls, hlength⟩, hitems⟩ := hfacts
  have hwell : s.WellFormed := hs.wellFormed_iff.2 fun _ => itemsLeadAway_of_noItems hitems
  refine ⟨s, hs, hwell, by rw [hcalls]; rfl, (hoistsAtomics_iff hwell {}).2 ⟨?_, fun e he => ?_⟩⟩
  · rw [hcalls]
    decide
  · exact withCalls_eq_self_iff.1 (withCalls_of_length hlength he) e rfl

/-- The tokens of
`shared uint s; void f() { for (uint i = atomicAdd(s, 1u); i < 4u; i++) ; }`. -/
def atomicAtStart : List TokenKind :=
  [.keyword (.storage .shared), .keyword (.type (.scalar .uint)), .ident "s", .punct .semicolon,
    .keyword (.type .void), .ident "f", .punct .leftParen, .punct .rightParen, .punct .leftBrace,
    .keyword (.word .forLoop), .punct .leftParen, .keyword (.type (.scalar .uint)), .ident "i",
    .punct .eq, .ident "atomicAdd", .punct .leftParen, .ident "s", .punct .comma,
    .number (.uint 1), .punct .rightParen, .punct .semicolon, .ident "i", .punct .lt,
    .number (.uint 4), .punct .semicolon, .ident "i", .punct .plusPlus, .punct .rightParen,
    .punct .semicolon, .punct .rightBrace, .endOfFile]

/-- The call at the start of a loop stays there, as a value that it does not have. -/
theorem exists_atomic_at_start :
    ∃ s : Shader, s.Accepted ∧ ¬ s.HoistsAtomics {} ∧
      s.toHlsl {} =
        "groupshared uint s;\n" ++
        "void f() \x7b\n" ++
        "    for (uint i = InterlockedAdd(s, 1u); (i < 4u); i++) ;\n" ++
        "\x7d\n" := by
  obtain ⟨s, hs, hfacts⟩ := Parse.exists_accepted (a := true)
    (f := fun s => decide (s.duties.length ≠ (s.toProgram {}).events.length) &&
      decide (s.toHlsl {} =
        "groupshared uint s;\n" ++
        "void f() \x7b\n" ++
        "    for (uint i = InterlockedAdd(s, 1u); (i < 4u); i++) ;\n" ++
        "\x7d\n"))
    (show (Parse.plainShader? .fragment atomicAtStart).map _ = _ by decide +kernel)
  simp only [Bool.and_eq_true, decide_eq_true_eq] at hfacts
  refine ⟨s, hs, fun h => ?_, hfacts.2⟩
  obtain ⟨temp, hmet⟩ := h.met
  exact hfacts.1 hmet.length_eq

end Shader

end ShaderBridge
