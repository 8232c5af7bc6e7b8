import ShaderBridge.Proofs.Lowering.Origins
import ShaderBridge.Proofs.Layout.Separation
import ShaderBridge.Proofs.Parse.Accepted

namespace ShaderBridge

open Hlsl

/-- Every occurrence of the second element has the first one in front of it. -/
def Before {α : Type} (l : List α) (a b : α) : Prop :=
  ∀ front behind, l = front ++ b :: behind → a ∈ front

section

variable {α β : Type} {l : List α} {a b : α}

theorem Before.filter {p : α → Bool} (h : Before l a b) (ha : p a = true) :
    Before (l.filter p) a b := by
  intro front behind hsplit
  obtain ⟨l₁, l₂, rfl, rfl, hrest⟩ := List.filter_eq_append_iff.1 hsplit
  obtain ⟨m₁, m₂, rfl, hskipped, -, -⟩ := List.filter_eq_cons_iff.1 hrest
  have hmem : a ∈ l₁ ++ m₁ := h (l₁ ++ m₁) m₂ (List.append_assoc ..).symm
  rcases List.mem_append.1 hmem with hmem | hmem
  · exact List.mem_filter.2 ⟨hmem, ha⟩
  · exact absurd ha (hskipped a hmem)

theorem Before.map {f : α → β} (h : Before l a b) (hf : f.Injective) :
    Before (l.map f) (f a) (f b) := by
  intro front behind hsplit
  obtain ⟨l₁, l₂, rfl, rfl, hrest⟩ := List.map_eq_append_iff.1 hsplit
  obtain ⟨c, l₃, rfl, hc, -⟩ := List.map_eq_cons_iff.1 hrest
  cases hf hc
  exact List.mem_map_of_mem (h l₁ l₃ rfl)

theorem Before.append_left {pre : List α} (h : Before l a b) (hb : b ∉ pre) :
    Before (pre ++ l) a b := by
  intro front behind hsplit
  obtain ⟨l₁, rfl, hrest⟩ | ⟨l₁, rfl, hrest⟩ := List.append_eq_append_iff.1 hsplit
  · exact List.mem_append_right _ (h l₁ behind hrest)
  · cases l₁ with
    | nil => exact absurd (h [] behind hrest.symm) List.not_mem_nil
    | cons c l₁ =>
        obtain ⟨rfl, -⟩ := List.cons.inj hrest
        exact absurd (List.mem_append_right _ List.mem_cons_self) hb

theorem Before.append_right {post : List α} (h : Before l a b) (hb : b ∉ post) :
    Before (l ++ post) a b := by
  intro front behind hsplit
  obtain ⟨l₁, rfl, rfl⟩ | ⟨l₁, rfl, hrest⟩ := List.append_eq_append_iff.1 hsplit
  · exact absurd (List.mem_append_right _ List.mem_cons_self) hb
  · cases l₁ with
    | nil =>
        rw [List.nil_append] at hrest
        exact absurd (hrest ▸ List.mem_cons_self) hb
    | cons c l₁ =>
        obtain ⟨rfl, -⟩ := List.cons.inj hrest
        exact h front l₁ rfl

theorem exists_group {f : α → List β} {front behind : List β} {x : β}
    (h : l.flatMap f = front ++ x :: behind) :
    ∃ before c after own rest, l = before ++ c :: after ∧ front = before.flatMap f ++ own ∧
      f c = own ++ x :: rest := by
  induction l generalizing front with
  | nil => simp at h
  | cons c l ih =>
      rw [List.flatMap_cons] at h
      obtain ⟨front', rfl, hrest⟩ | ⟨own, hgroup, hrest⟩ := List.append_eq_append_iff.1 h
      · obtain ⟨before, d, after, own, rest, rfl, rfl, hd⟩ := ih hrest
        exact ⟨c :: before, d, after, own, rest, rfl, by simp, hd⟩
      · cases own with
        | nil =>
            have hrest : l.flatMap f = [] ++ x :: behind := hrest.symm
            obtain ⟨before, d, after, own, rest, rfl, hfront, hd⟩ := ih hrest
            refine ⟨c :: before, d, after, own, rest, rfl, ?_, hd⟩
            rw [List.flatMap_cons, List.append_assoc, ← hfront, hgroup]
            simp
        | cons y own =>
            obtain ⟨rfl, -⟩ := List.cons.inj hrest
            exact ⟨[], c, l, front, own, rfl, rfl, hgroup⟩

end

/-- The field or the buffer that is mentioned. -/
def Hlsl.Mention.storage? : Mention → Option String
  | .load text | .resource text => some text
  | _ => none

/-! ### What is declared -/

/-- A thing that the source declares, or a declaration that does not come from it. -/
inductive Entity where
  | fixed (head : Head)
  | global (v : VarId)
  | record (id : StructId)
  | block (id : StructId)
  | function (f : FuncId)

namespace Shader

variable (s : Shader)

def declarations : Entity → List Subject
  | .fixed head => [.fixed head]
  | .global v => s.globalSubjects v
  | .record id => [.record id]
  | .block id => s.blockSubjects id
  | .function f => s.functionSubjects f

/-- What a program declares, in order. -/
def entities (options : Options) : List Entity :=
  (s.helperDecls options).map (fun d => Entity.fixed d.head) ++
    ((s.plainGlobals options).map Entity.global ++ (s.structures.toList.map Entity.record ++
      (s.inputDecls.map (fun d => Entity.fixed d.head) ++ (s.blocks.toList.map Entity.block ++
        ((s.recordGlobals options).map Entity.global ++
          s.functions.toList.map Entity.function)))))

/-- The pass in which something is declared. -/
def pass : Entity → Nat
  | .fixed (.fixed _) => 0
  | .global v => if (s.var v).type.builtin?.isSome then 1 else 5
  | .record _ => 2
  | .fixed _ => 3
  | .block _ => 4
  | .function _ => 6

/-! ### What is mentioned -/

/-- The block that a type is, if it is one. -/
def blockOf? (t : TypeRef) : Option StructId :=
  match t with
  | .builtin _ => none
  | .declared id => if (s.struct id).block.isSome then some id else none

def typeEntities (t : TypeRef) : List Entity :=
  match t with
  | .builtin _ => []
  | .declared id => [if (s.struct id).block.isSome then .block id else .record id]

/-- What has to be declared for a variable. An instance of a block stands for the block, as do its
fields. What the language declares is not counted, and neither is what functions declare. -/
def varEntities (v : VarId) : List Entity :=
  match (s.var v).role with
  | .global _ =>
    if (s.var v).flags.hidden then []
    else match s.blockOf? (s.var v).type with
      | some id => [.block id]
      | none => [.global v]
  | .field => (s.blocks.toList.filter fun id => (s.struct id).fields.contains v).map .block
  | _ => []

/-- What an expression itself mentions. Assignments and atomic calls may need variables of the type
of what they write to. -/
def exprEntities (e : Expr) : List Entity :=
  match e with
  | .var v => s.varEntities v
  | .member _ _ (some field) => s.varEntities field
  | .construct type _ => s.typeEntities type
  | .assign _ left _ => (s.baseTypeOf? left).toList.flatMap s.typeEntities
  | .call name args target =>
    (target.filter fun f => !(s.func f).builtin).toList.map .function ++
      if Intrinsic.isAtomic name then
        (args.head?.bind s.baseTypeOf?).toList.flatMap s.typeEntities
      else []
  | _ => []

def OriginMentions : Origin → Entity → Prop
  | .expr e, y => ∃ level w, s.Holds level e w ∧ y ∈ s.exprEntities (s.expr w)
  | .type t, y => y ∈ s.typeEntities t
  | .buffer _, _ | .given _, _ => False

/-- What is mentioned in the source where something is declared. -/
def SubjectMentions (subject : Subject) (y : Entity) : Prop :=
  ∃ o, s.WrittenFrom subject o ∧ s.OriginMentions o y

def EntityMentions (x y : Entity) : Prop :=
  ∃ subject ∈ s.declarations x, s.SubjectMentions subject y

/-- The declarations of something. A definition may have been announced by a prototype. -/
def forms : Entity → List Entity
  | .function f =>
    ((f :: (s.func f).prototype.toList).filter fun g => !(s.func g).builtin).map .function
  | x => [x]

/-- Something is declared in the source before something else of its kind. -/
inductive Precedes : Entity → Entity → Prop where
  | global {v w : VarId} : Before s.globals.toList v w → Precedes (.global v) (.global w)
  | record {d d' : StructId} : Before s.structures.toList d d' → Precedes (.record d) (.record d')
  | block {d d' : StructId} : Before s.blocks.toList d d' → Precedes (.block d) (.block d')
  | function {f f' : FuncId} :
      Before s.functions.toList f f' → Precedes (.function f) (.function f')

/-- The source mentions what it has declared before. Only the order within a pass is asked for. -/
def InOrder : Prop :=
  ∀ x y, s.EntityMentions x y → s.pass y = s.pass x → ∃ y' ∈ s.forms y, s.Precedes y' x

/-- Something has a declaration for one of the given things. -/
def IsDeclared (l : List Entity) (y : Entity) : Prop :=
  ∃ y' ∈ s.forms y, y' ∈ l ∧ s.declarations y' ≠ []

variable {s} {options : Options} {x y y' : Entity} {before after : List Entity}

theorem subjects_eq (s : Shader) (options : Options) :
    s.subjects options = (s.entities options).flatMap s.declarations := by
  simp only [subjects, entities, List.flatMap_append, List.flatMap_map, List.append_assoc,
    declarations]
  simp only [List.map_eq_flatMap]

theorem pass_of_mem_forms (h : y' ∈ s.forms y) : s.pass y' = s.pass y := by
  cases y with
  | function f =>
      obtain ⟨g, -, rfl⟩ := List.mem_map.1 h
      rfl
  | _ => rw [List.mem_singleton.1 h]

theorem pass_plainGlobal {v : VarId} (h : v ∈ s.plainGlobals options) : s.pass (.global v) = 1 :=
  if_pos (Bool.and_eq_true_iff.1 (List.mem_filter.1 h).2).2

theorem pass_recordGlobal {v : VarId} (h : v ∈ s.recordGlobals options) :
    s.pass (.global v) = 5 := by
  have hrecord := (Bool.and_eq_true_iff.1 (List.mem_filter.1 h).2).2
  cases htype : (s.var v).type with
  | builtin t => simp [htype] at hrecord
  | declared id => simp [pass, htype, TypeRef.builtin?]

/-- Things whose passes do not fall, beginning with the given one. -/
def Rises (s : Shader) (n : Nat) (l : List Entity) : Prop :=
  (l.Pairwise fun a b => s.pass a ≤ s.pass b) ∧ ∀ a ∈ l, n ≤ s.pass a

theorem Rises.cons {α : Type} {n m : Nat} {rest : List Entity} (h : s.Rises m rest) (hle : n ≤ m)
    {l : List α} {f : α → Entity} (hl : ∀ a ∈ l, s.pass (f a) = n) :
    s.Rises n (l.map f ++ rest) := by
  have hpass : ∀ a ∈ l.map f, s.pass a = n := by
    intro a ha
    obtain ⟨c, hc, rfl⟩ := List.mem_map.1 ha
    exact hl c hc
  have hrest : ∀ b ∈ rest, n ≤ s.pass b := fun b hb => hle.trans (h.2 b hb)
  refine ⟨List.pairwise_append.2 ⟨?_, h.1, fun a ha b hb => (hpass a ha).symm ▸ hrest b hb⟩, ?_⟩
  · exact List.pairwise_of_forall_mem_list fun a ha b hb => by rw [hpass a ha, hpass b hb]
  · exact List.forall_mem_append.2 ⟨fun a ha => (hpass a ha).ge, hrest⟩

theorem pass_entities (s : Shader) (options : Options) :
    (s.entities options).Pairwise fun a b => s.pass a ≤ s.pass b := by
  have hhelpers : ∀ d ∈ s.helperDecls options, s.pass (.fixed d.head) = 0 := by
    unfold helperDecls
    split <;> simp [pass, Decl.head]
  have hinputs : ∀ d ∈ s.inputDecls, s.pass (.fixed d.head) = 3 := by
    unfold inputDecls
    split
    · simp [computeDecls, computeInputs, waveInputs, pass, Decl.head]
    · simp
  have hlast : s.Rises 6 (s.functions.toList.map .function) := by
    refine ⟨?_, by simp [pass]⟩
    exact List.pairwise_map.2 (List.pairwise_of_forall_mem_list fun _ _ _ _ => Nat.le_refl 6)
  refine (Rises.cons (n := 0) (m := 1) ?_ (by omega) hhelpers).1
  refine Rises.cons (m := 2) ?_ (by omega) fun _ => pass_plainGlobal
  refine Rises.cons (m := 3) ?_ (by omega) fun _ _ => rfl
  refine Rises.cons (m := 4) ?_ (by omega) hinputs
  refine Rises.cons (m := 5) ?_ (by omega) fun _ _ => rfl
  exact hlast.cons (by omega) fun _ => pass_recordGlobal

theorem mem_globals_of_mem_entities {v : VarId} (h : .global v ∈ s.entities options) :
    v ∈ s.plainGlobals options ∨ v ∈ s.recordGlobals options := by
  simpa [entities] using h

theorem before_globals {v w : VarId} (h : Before s.globals.toList v w)
    (hpass : s.pass (.global v) = s.pass (.global w)) (hv : .global v ∈ s.entities options) :
    Before (s.entities options) (.global v) (.global w) := by
  have hmap {l : List VarId} (h : Before l v w) := h.map (f := Entity.global) fun _ _ =>
    Entity.global.inj
  rcases mem_globals_of_mem_entities hv with hv | hv
  · have hchunk : Before (s.plainGlobals options) v w := h.filter (List.mem_filter.1 hv).2
    have hother : w ∉ s.recordGlobals options := fun hw => by
      rw [pass_plainGlobal hv, pass_recordGlobal hw] at hpass
      cases hpass
    exact ((hmap hchunk).append_right (by simp [hother])).append_left (by simp)
  · have hchunk : Before (s.recordGlobals options) v w := h.filter (List.mem_filter.1 hv).2
    have hother : w ∉ s.plainGlobals options := fun hw => by
      rw [pass_plainGlobal hw, pass_recordGlobal hv] at hpass
      cases hpass
    refine ((((((hmap hchunk).append_right ?_).append_left ?_).append_left ?_).append_left
      ?_).append_left ?_).append_left ?_ <;> simp [hother]

theorem Precedes.before_entities (h : s.Precedes y x) (hpass : s.pass y = s.pass x)
    (hwritten : ∀ v, y = .global v → y ∈ s.entities options) : Before (s.entities options) y x := by
  cases h with
  | @global v w h => exact before_globals h hpass (hwritten v rfl)
  | record h =>
      have hchunk := h.map (f := Entity.record) fun _ _ => Entity.record.inj
      refine ((hchunk.append_right ?_).append_left ?_).append_left ?_ <;> simp
  | block h =>
      have hchunk := h.map (f := Entity.block) fun _ _ => Entity.block.inj
      refine ((((hchunk.append_right ?_).append_left ?_).append_left ?_).append_left
        ?_).append_left ?_ <;> simp
  | function h =>
      have hchunk := h.map (f := Entity.function) fun _ _ => Entity.function.inj
      refine (((((hchunk.append_left ?_).append_left ?_).append_left ?_).append_left
        ?_).append_left ?_).append_left ?_ <;> simp

theorem IsDeclared.of_pass_le (hentities : s.entities options = before ++ x :: after)
    (horder : s.InOrder) (hmentions : s.EntityMentions x y)
    (hdeclared : s.IsDeclared (s.entities options) y) (hpass : s.pass y ≤ s.pass x) :
    s.IsDeclared before y := by
  obtain ⟨y', hform, hmem, hsome⟩ := hdeclared
  have hrising := pass_entities s options
  rw [hentities] at hrising
  rcases Nat.lt_or_eq_of_le hpass with hlt | heq
  · refine ⟨y', hform, ?_, hsome⟩
    rw [hentities] at hmem
    refine (List.mem_append.1 hmem).resolve_right fun hlater => ?_
    have hle : s.pass x ≤ s.pass y' := by
      rcases List.mem_cons.1 hlater with rfl | hafter
      · exact Nat.le_refl _
      · exact List.rel_of_pairwise_cons (List.pairwise_append.1 hrising).2.1 hafter
    rw [pass_of_mem_forms hform] at hle
    omega
  · obtain ⟨z, hz, hprecedes⟩ := horder x y hmentions heq
    have hbefore (hwritten : ∀ v, z = .global v → z ∈ s.entities options) :
        Before (s.entities options) z x :=
      hprecedes.before_entities ((pass_of_mem_forms hz).trans heq) hwritten
    cases y with
    | function f =>
        obtain ⟨g, hg, rfl⟩ := List.mem_map.1 hz
        refine ⟨_, hz, hbefore (fun v hv => by cases hv) before after hentities, ?_⟩
        have huser := (List.mem_filter.1 hg).2
        simp only [Bool.not_eq_true'] at huser
        simp [declarations, functionSubjects, huser]
    | _ =>
        cases List.mem_singleton.1 hz
        cases List.mem_singleton.1 hform
        exact ⟨_, hz, hbefore (fun _ _ => hmem) before after hentities, hsome⟩

theorem IsDeclared.pass_le (hentities : s.entities options = before ++ x :: after)
    (hdeclared : s.IsDeclared before y) : s.pass y ≤ s.pass x := by
  obtain ⟨y', hform, hmem, -⟩ := hdeclared
  have hrising := pass_entities s options
  rw [hentities] at hrising
  rw [← pass_of_mem_forms hform]
  exact (List.pairwise_append.1 hrising).2.2 y' hmem x List.mem_cons_self

theorem IsDeclared.mono {l l' : List Entity} (h : s.IsDeclared l y) (hl : l ⊆ l') :
    s.IsDeclared l' y := by
  obtain ⟨y', hform, hmem, hsome⟩ := h
  exact ⟨y', hform, hl hmem, hsome⟩

theorem blockSubjects_of_accessor {id : StructId} {buffer : ByteBuffer}
    (h : .accessor buffer ∈ s.blockSubjects id) :
    s.blockSubjects id = .storage id :: (s.byteBuffers id).map .accessor := by
  unfold blockSubjects at h ⊢
  split at h
  · split at h
    · cases h
    · next hsizes =>
        rw [if_neg hsizes]
        split at h
        · rfl
        · cases List.mem_singleton.1 h
        · cases List.mem_singleton.1 h
  · cases h

theorem eq_of_buffer? {subject : Subject} {buffer : ByteBuffer}
    (h : subject.buffer? = some buffer) : subject = .accessor buffer := by
  cases subject with
  | accessor b => cases h; rfl
  | _ => cases h

theorem exists_storage {earlier later : List Subject} {buffer : ByteBuffer}
    (h : s.subjects options = earlier ++ .accessor buffer :: later) :
    ∃ id, .storage id ∈ earlier ∧ s.bufferName id = buffer.resource := by
  rw [subjects_eq] at h
  obtain ⟨before, x, after, own, rest, -, rfl, hgroup⟩ := exists_group h
  have hmem : .accessor buffer ∈ s.declarations x := by simp [hgroup]
  have hnone {l : List Subject} (hl : l.filterMap Subject.buffer? = []) :
      .accessor buffer ∉ l := fun hmem => by
    have hbuffer : buffer ∈ l.filterMap Subject.buffer? := List.mem_filterMap.2 ⟨_, hmem, rfl⟩
    rw [hl] at hbuffer
    cases hbuffer
  cases x with
  | fixed head => cases List.mem_singleton.1 hmem
  | record id => cases List.mem_singleton.1 hmem
  | global v => exact absurd hmem (hnone (buffers_globalSubjects v))
  | function f => exact absurd hmem (hnone (buffers_functionSubjects f))
  | block id =>
      have hblock := blockSubjects_of_accessor hmem
      rw [declarations, hblock] at hgroup hmem
      refine ⟨id, ?_, ?_⟩
      · cases own with
        | nil => cases hgroup
        | cons first own =>
            obtain ⟨rfl, -⟩ := List.cons.inj hgroup
            simp
      · obtain ⟨b, hb, heq⟩ := List.mem_map.1 ((List.mem_cons.1 hmem).resolve_left (by simp))
        cases heq
        exact (resource_of_mem_placeFields hb).1.symm

theorem mem_of_bufferOf? {buffers : List ByteBuffer} {e : ExprId} {b : ByteBuffer}
    (h : s.bufferOf? buffers e = some b) : b ∈ buffers := by
  obtain ⟨v, -, hfind⟩ := Option.bind_eq_some_iff.1 h
  exact List.mem_of_find?_eq_some hfind

theorem mem_of_accessWithin? {buffers : List ByteBuffer} {depth : Nat} {e : ExprId}
    {access : Access} (h : s.accessWithin? buffers depth e = some access) :
    access.buffer ∈ buffers := by
  induction depth generalizing e access with
  | zero => cases h
  | succ depth ih =>
      cases accessStep_of_accessWithin? h with
      | field hsome => exact mem_of_bufferOf? hsome
      | subscript _ _ _ hwhole | member _ _ _ hwhole =>
          have hmem := ih hwhole
          exact hmem

section

variable {earlier : List Subject} {subject : Subject} {d : Decl}

theorem DeclaredAs.load_declared (h : s.DeclaredAs options earlier subject d) {field : String}
    (hm : .load field ∈ d.mentions) :
    ∃ buffer, .accessor buffer ∈ earlier ∧ (s.var buffer.field).name = field := by
  obtain ⟨o, hfrom, hyields⟩ := h.belongs.mentions _ hm
  cases hyields with
  | expr _ hmakes =>
      cases hmakes with
      | @load buffer hbuffer =>
          obtain ⟨known, hknown, heq⟩ := List.mem_filterMap.1 (mem_of_bufferOf? hbuffer)
          exact ⟨buffer, eq_of_buffer? heq ▸ hknown, rfl⟩
  | given =>
      have hnone : ∀ m ∈ givenMentions, m.storage? = none := by decide +kernel
      cases hnone _ (mem_givenMentions hfrom)

theorem DeclaredAs.resource_declared (h : s.DeclaredAs options earlier subject d) {name : String}
    (hm : .resource name ∈ d.mentions) : ∃ id, .storage id ∈ earlier ∧ s.bufferName id = name := by
  obtain ⟨o, hfrom, hyields⟩ := h.belongs.mentions _ hm
  obtain ⟨-, -, later, -, hsubjects, -⟩ := h
  cases hyields with
  | expr _ hmakes =>
      cases hmakes with
      | @stored op left right access _ haccess =>
          obtain ⟨known, hknown, heq⟩ := List.mem_filterMap.1 (mem_of_accessWithin? haccess)
          rw [eq_of_buffer? heq] at hknown
          obtain ⟨front, behind, rfl⟩ := List.append_of_mem hknown
          rw [List.append_assoc, List.cons_append] at hsubjects
          obtain ⟨id, hid, hname⟩ := exists_storage hsubjects
          exact ⟨id, List.mem_append_left _ hid, hname⟩
  | resource buffer =>
      cases eq_accessor_of_buffer hfrom
      exact exists_storage hsubjects
  | given =>
      have hnone : ∀ m ∈ givenMentions, m.storage? = none := by decide +kernel
      cases hnone _ (mem_givenMentions hfrom)

end

/-! ### Shaders that mention only types -/

/-- A structure or a block that is declared. -/
def isDeclaredType (s : Shader) : Entity → Bool
  | .record id => s.structures.contains id
  | .block id => s.blocks.contains id && !(s.blockSubjects id).isEmpty
  | _ => false

/-- Whether nothing is mentioned but structures and blocks whose fields mention nothing. -/
def mentionsOnlyTypes (s : Shader) : Bool :=
  s.exprs.all (fun e => (s.exprEntities e).all s.isDeclaredType) &&
    s.vars.all (fun v => (s.typeEntities v.type).all s.isDeclaredType) &&
    s.funcs.all (fun f => (s.typeEntities f.returnType).all s.isDeclaredType) &&
    s.structs.all fun d => d.fields.all fun f =>
      (s.typeEntities (s.var f).type).isEmpty && (s.declaratorExprs f).isEmpty

theorem all_getD {α : Type} [Inhabited α] {p : α → Bool} {a : Array α} (h : a.all p = true)
    (hdefault : p default = true) (i : Nat) : p (a.getD i default) = true := by
  rw [Array.getD_eq_getD_getElem?]
  cases hi : a[i]? with
  | none => exact hdefault
  | some x =>
      obtain ⟨hlt, rfl⟩ := Array.getElem?_eq_some_iff.1 hi
      exact Array.all_eq_true.1 h i hlt

section

variable (h : s.mentionsOnlyTypes = true)
include h

theorem isDeclaredType_of_mentions {subject : Subject} (hy : s.SubjectMentions subject y) :
    s.isDeclaredType y = true := by
  simp only [mentionsOnlyTypes, Bool.and_eq_true] at h
  obtain ⟨⟨⟨hexprs, hvars⟩, hfuncs⟩, -⟩ := h
  obtain ⟨o, hfrom, hmentions⟩ := hy
  rcases plain_of_writtenFrom hfrom with hplain | ⟨_, -, rfl⟩
  · cases hplain with
    | var v => exact List.all_eq_true.1 (all_getD hvars rfl v.index) y hmentions
    | result f => exact List.all_eq_true.1 (all_getD hfuncs rfl f.index) y hmentions
    | expr e =>
        obtain ⟨level, w, -, hw⟩ := hmentions
        exact List.all_eq_true.1 (all_getD hexprs rfl w.index) y hw
    | given => exact hmentions.elim
  · exact hmentions.elim

theorem not_mentions_of_field {id : StructId} {f : VarId} (hf : f ∈ (s.struct id).fields)
    {o : Origin} (ho : o ∈ s.varOrigins f) : ¬ s.OriginMentions o y := by
  simp only [mentionsOnlyTypes, Bool.and_eq_true] at h
  have hfields := List.all_eq_true.1 (all_getD h.2 rfl id.index) f hf
  rw [Bool.and_eq_true, List.isEmpty_iff, List.isEmpty_iff] at hfields
  rw [varOrigins, hfields.2, List.map_nil, List.mem_singleton] at ho
  subst ho
  rw [OriginMentions, hfields.1]
  exact List.not_mem_nil

theorem not_mentions_of_block {id : StructId} {subject : Subject}
    (hsubject : subject ∈ s.blockSubjects id) : ¬ s.SubjectMentions subject y := by
  have hfields {o : Origin} (hfrom : ∃ f ∈ (s.struct id).fields, o ∈ s.varOrigins f) :
      ¬ s.OriginMentions o y :=
    hfrom.elim fun f ⟨hf, ho⟩ => not_mentions_of_field h hf ho
  rintro ⟨o, hfrom, hmentions⟩
  unfold blockSubjects at hsubject
  split at hsubject
  · split at hsubject
    · cases hsubject
    · split at hsubject
      · rcases List.mem_cons.1 hsubject with rfl | haccessor
        · exact hfrom
        · obtain ⟨b, hb, rfl⟩ := List.mem_map.1 haccessor
          rcases hfrom with rfl | rfl
          · have hfield : b.field ∈ (s.struct id).fields :=
              field_byteBuffers s id ▸ List.mem_map_of_mem hb
            exact hfields ⟨b.field, hfield, List.mem_cons_self⟩ hmentions
          · exact hmentions
      · cases List.mem_singleton.1 hsubject
        exact hfields hfrom hmentions
      · cases List.mem_singleton.1 hsubject
        exact hfields hfrom hmentions
  · cases hsubject

theorem inOrder_of_mentionsOnlyTypes : s.InOrder := by
  rintro x y ⟨subject, hsubject, hy⟩ hpass
  have hpasses : s.pass y = 2 ∨ s.pass y = 4 := by
    have htype := isDeclaredType_of_mentions h hy
    cases y with
    | record => exact .inl rfl
    | block => exact .inr rfl
    | _ => cases htype
  cases x with
  | fixed head =>
      obtain ⟨o, hfrom, hmentions⟩ := hy
      cases List.mem_singleton.1 hsubject
      obtain ⟨m, -, rfl⟩ := hfrom
      exact hmentions.elim
  | global v =>
      have hglobal : s.pass (.global v) = 1 ∨ s.pass (.global v) = 5 :=
        (em _).imp (fun h => if_pos h) fun h => if_neg h
      omega
  | record id =>
      cases List.mem_singleton.1 hsubject
      obtain ⟨o, ⟨f, hf, ho⟩, hmentions⟩ := hy
      exact absurd hmentions (not_mentions_of_field h hf ho)
  | block id => exact absurd hy (not_mentions_of_block h hsubject)
  | function f =>
      have hfunction : s.pass (.function f) = 6 := rfl
      omega

end

theorem isDeclared_of_isDeclaredType (h : s.isDeclaredType y = true) (options : Options) :
    s.IsDeclared (s.entities options) y := by
  cases y with
  | record id =>
      have hmem : id ∈ s.structures := Array.contains_iff_mem.1 h
      exact ⟨_, List.mem_singleton_self _, by simp [entities, hmem], by simp [declarations]⟩
  | block id =>
      obtain ⟨hmem, hsome⟩ := Bool.and_eq_true_iff.1 h
      have hmem : id ∈ s.blocks := Array.contains_iff_mem.1 hmem
      refine ⟨_, List.mem_singleton_self _, by simp [entities, hmem], ?_⟩
      simpa [declarations] using hsome
  | _ => cases h

theorem pass_le_six (y : Entity) : s.pass y ≤ 6 := by
  cases y with
  | fixed head => cases head <;> simp [pass]
  | global v =>
      simp only [pass]
      split <;> omega
  | _ => simp [pass]

theorem pass_of_function_mem {f : FuncId} (h : .function f ∈ s.declarations x) : s.pass x = 6 := by
  cases x with
  | fixed head => cases List.mem_singleton.1 h
  | record id => cases List.mem_singleton.1 h
  | global v =>
      simp only [declarations, globalSubjects] at h
      split at h <;> simp at h
  | block id =>
      simp only [declarations, blockSubjects] at h
      split at h
      · split at h
        · cases h
        · split at h <;> simp at h
      · cases h
  | function g => rfl

/-- Every declaration of a program is one of those of a thing that is declared behind others. What
it mentions comes from the parts of the source that it is written from, and the functions and the
resources that it reads and writes buffers by stand in front of it. Where the source declares things
before it mentions them, all that these parts mention is declared before if and only if the program
declares all of it, and none of it in a later pass. -/
theorem InOrder.declared_before_iff (horder : s.InOrder) (options : Options)
    {earlier : List Subject} {subject : Subject} {d : Decl}
    (h : s.DeclaredAs options earlier subject d) :
    ∃ before x after own rest, s.entities options = before ++ x :: after ∧
      earlier = before.flatMap s.declarations ++ own ∧ s.declarations x = own ++ subject :: rest ∧
      (∀ m ∈ d.mentions, ∃ o, s.WrittenFrom subject o ∧
        s.Yields (earlier.filterMap Subject.buffer?) o m) ∧
      (∀ field, .load field ∈ d.mentions →
        ∃ buffer, .accessor buffer ∈ earlier ∧ (s.var buffer.field).name = field) ∧
      (∀ name, .resource name ∈ d.mentions →
        ∃ id, .storage id ∈ earlier ∧ s.bufferName id = name) ∧
      ((∀ y, s.SubjectMentions subject y → s.IsDeclared before y) ↔
        ∀ y, s.SubjectMentions subject y →
          s.IsDeclared (s.entities options) y ∧ s.pass y ≤ s.pass x) := by
  have hsplit := h
  obtain ⟨-, -, later, -, hsubjects, -⟩ := hsplit
  obtain ⟨before, x, after, own, rest, hentities, hearlier, hgroup⟩ :=
    exists_group (subjects_eq s options ▸ hsubjects)
  refine ⟨before, x, after, own, rest, hentities, hearlier, hgroup, h.belongs.mentions,
    fun _ => h.load_declared, fun _ => h.resource_declared, ?_⟩
  refine forall₂_congr fun y hy => ⟨fun hdeclared => ⟨?_, hdeclared.pass_le hentities⟩, ?_⟩
  · exact hdeclared.mono (hentities ▸ List.subset_append_left _ _)
  · rintro ⟨hdeclared, hpass⟩
    have hmentions : s.EntityMentions x y := ⟨subject, by simp [hgroup], hy⟩
    exact hdeclared.of_pass_le hentities horder hmentions hpass

end Shader

/-- The tokens of `struct S { float a; }; buffer B { float b; }; float f() { return S(b).a; }`. -/
def fieldOfBlock : List TokenKind :=
  [.keyword (.word .struct), .ident "S", .punct .leftBrace, .keyword (.type (.scalar .float)),
    .ident "a", .punct .semicolon, .punct .rightBrace, .punct .semicolon,
    .keyword (.storage .buffer), .ident "B", .punct .leftBrace, .keyword (.type (.scalar .float)),
    .ident "b", .punct .semicolon, .punct .rightBrace, .punct .semicolon,
    .keyword (.type (.scalar .float)), .ident "f", .punct .leftParen, .punct .rightParen,
    .punct .leftBrace, .keyword (.word .returnValue), .ident "S", .punct .leftParen, .ident "b",
    .punct .rightParen, .punct .dot, .ident "a", .punct .semicolon, .punct .rightBrace, .endOfFile]

/-- The structure and the block that a function mentions are declared before it. -/
theorem Shader.exists_declared_before :
    ∃ s : Shader, s.Accepted ∧ s.InOrder ∧ ∃ earlier d, s.DeclaredAs {} earlier (.function ⟨0⟩) d ∧
      ∃ before x after own rest, s.entities {} = before ++ x :: after ∧
        earlier = before.flatMap s.declarations ++ own ∧
        s.declarations x = own ++ .function ⟨0⟩ :: rest ∧
        ∀ y, s.SubjectMentions (.function ⟨0⟩) y → s.IsDeclared before y := by
  obtain ⟨s, hs, hfacts⟩ := Parse.exists_accepted
    (f := fun s => (s.mentionsOnlyTypes, s.functions.toList, (s.func ⟨0⟩).builtin))
    (show (Parse.plainShader? .fragment fieldOfBlock).map _ = some (true, [⟨0⟩], false) by
      decide +kernel)
  simp only [Prod.mk.injEq] at hfacts
  obtain ⟨htypes, hfunctions, huser⟩ := hfacts
  have hsubject : .function ⟨0⟩ ∈ s.subjects {} := by
    simp [subjects, hfunctions, functionSubjects, huser]
  obtain ⟨earlier, d, hd⟩ := exists_declaredAs_of_subject hsubject
  have horder := inOrder_of_mentionsOnlyTypes htypes
  obtain ⟨before, x, after, own, rest, hentities, hearlier, hgroup, -, -, -, hiff⟩ :=
    InOrder.declared_before_iff horder {} hd
  refine ⟨s, hs, horder, earlier, d, hd, before, x, after, own, rest, hentities, hearlier, hgroup,
    hiff.2 fun y hy => ⟨?_, ?_⟩⟩
  · exact isDeclared_of_isDeclaredType (isDeclaredType_of_mentions htypes hy) {}
  · have hfunction : .function ⟨0⟩ ∈ s.declarations x := by simp [hgroup]
    exact (pass_of_function_mem hfunction).symm ▸ pass_le_six y

/-- The tokens of `struct S { float a; }; float x = S(1).a;`. -/
def fieldOfRecord : List TokenKind :=
  [.keyword (.word .struct), .ident "S", .punct .leftBrace, .keyword (.type (.scalar .float)),
    .ident "a", .punct .semicolon, .punct .rightBrace, .punct .semicolon,
    .keyword (.type (.scalar .float)), .ident "x", .punct .eq, .ident "S", .punct .leftParen,
    .number (.integer .int 1), .punct .rightParen, .punct .dot, .ident "a", .punct .semicolon,
    .endOfFile]

/-- A variable is declared before the structure that its first value is a part of. -/
theorem Shader.exists_mentioned_before :
    ∃ s : Shader, s.Accepted ∧ s.InOrder ∧
      (∃ earlier d v id, s.DeclaredAs {} earlier (.global v) d ∧
        s.SubjectMentions (.global v) (.record id) ∧ .record id ∈ s.subjects {} ∧
        .record id ∉ earlier) ∧
      s.toHlsl {} =
        "float x = (S)(1).a;\n" ++
        "struct S \x7b\n" ++
        "    float a;\n" ++
        "\x7d;\n" := by
  obtain ⟨s, hs, hfacts⟩ := Parse.exists_accepted
    (f := fun s => ([s.mentionsOnlyTypes, (s.helperDecls {}).isEmpty, s.structures.contains ⟨0⟩,
        (s.struct ⟨0⟩).block.isNone, (s.var ⟨37⟩).global?.isSome,
        s.declaratorExprs ⟨37⟩ == [⟨18⟩]],
      s.plainGlobals {}, [s.expr ⟨18⟩, s.expr ⟨17⟩], s.toHlsl {}))
    (show (Parse.plainShader? .fragment fieldOfRecord).map _ =
        some ([true, true, true, true, true, true], [⟨37⟩],
          [.member ⟨17⟩ "a" (some ⟨36⟩), .construct (.declared ⟨0⟩) [⟨16⟩]],
          "float x = (S)(1).a;\n" ++
          "struct S \x7b\n" ++
          "    float a;\n" ++
          "\x7d;\n") by
      decide +kernel)
  simp only [Prod.mk.injEq, List.cons.injEq, and_true] at hfacts
  obtain ⟨⟨htypes, hhelpers, hlisted, hrecord, hglobal, hinitial⟩, hplain, ⟨hmember, hvalue⟩,
    htext⟩ := hfacts
  obtain ⟨g, hglobal⟩ := Option.isSome_iff_exists.1 hglobal
  have hsubjects : ∃ later, s.subjects {} = [] ++ .global ⟨37⟩ :: later := by
    simp [subjects, List.isEmpty_iff.1 hhelpers, hplain, globalSubjects, hglobal]
  obtain ⟨later, hsubjects⟩ := hsubjects
  obtain ⟨d, hd⟩ := exists_declaredAs hsubjects
  refine ⟨s, hs, inOrder_of_mentionsOnlyTypes htypes, ⟨[], d, ⟨37⟩, ⟨0⟩, hd,
    ⟨.expr ⟨18⟩, ?_, 1, ⟨17⟩, ?_, ?_⟩, ?_, List.not_mem_nil⟩, htext⟩
  · exact List.mem_cons_of_mem _ (by simp [eq_of_beq hinitial])
  · exact .operand (by simp [hmember, Expr.operands]) (.here _)
  · rw [hvalue, exprEntities, typeEntities, Option.isNone_iff_eq_none.1 hrecord]
    exact List.mem_singleton_self _
  · have hmem : ⟨0⟩ ∈ s.structures := Array.contains_iff_mem.1 hlisted
    simp [subjects, hmem]

end ShaderBridge
