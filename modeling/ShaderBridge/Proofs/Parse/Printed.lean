import ShaderBridge.Proofs.Parse.OperatorTable
import ShaderBridge.Proofs.Parse.Printing

namespace ShaderBridge

namespace Constant

def isNegative : Constant → Bool
  | integer k bits => k.toInt bits < 0
  | _ => false

/-- The integer without its sign. Where there is none as large, the bits stay the same. -/
def magnitude : Constant → Constant
  | integer k bits => integer k (-bits)
  | c => c

theorem unsignedText_of_nonneg {k : IntKind} {bits : BitVec k.width}
    (h : (integer k bits).isNegative = false) :
    Hlsl.literalText (integer k bits) = (integer k bits).unsignedText := by
  have hnatural : (integer k bits).isNatural :=
    decide_eq_true (Int.not_lt.1 (of_decide_eq_false h))
  obtain ⟨_, _, heq, htext⟩ := literalText_of_isNatural hnatural
  cases heq
  exact htext

theorem toNat_neg_of_isNegative {k : IntKind} {bits : BitVec k.width} (h : k.toInt bits < 0) :
    k.toInt bits = -((-bits).toNat : Int) := by
  unfold IntKind.toInt at h ⊢
  split at h
  · next hsigned =>
      rw [if_pos hsigned]
      rw [BitVec.toInt_eq_toNat_cond] at h ⊢
      rw [BitVec.toNat_neg]
      have hlt := bits.isLt
      have hmod : (2 ^ k.width - bits.toNat) % 2 ^ k.width = 2 ^ k.width - bits.toNat := by
        refine Nat.mod_eq_of_lt ?_
        split at h <;> omega
      split at h
      · omega
      · rw [if_neg ‹_›, hmod]
        omega
  · omega

theorem literalText_of_isNegative {k : IntKind} {bits : BitVec k.width}
    (h : (integer k bits).isNegative) :
    Hlsl.literalText (integer k bits) = '-' :: (integer k bits).magnitude.unsignedText := by
  have hneg : k.toInt bits < 0 := of_decide_eq_true h
  have htoInt := toNat_neg_of_isNegative hneg
  obtain ⟨n, hn⟩ : ∃ n, (-bits).toNat = n + 1 := ⟨(-bits).toNat - 1, by omega⟩
  have hsucc : k.toInt bits = Int.negSucc n := by
    rw [htoInt, hn]
    rfl
  rw [Hlsl.literalText, hsucc]
  show '-' :: (Nat.toDigits 10 (n + 1) ++ _) = '-' :: (Nat.toDigits 10 (-bits).toNat ++ _)
  rw [hn]

end Constant

namespace Tree

/-- The tree that is meant by what is printed, where a negative integer is its magnitude with a
minus sign in front of it. -/
def signed : Tree → Tree
  | literal c => if c.isNegative then unary .minus (literal c.magnitude) else literal c
  | var v => var v
  | unary op t => unary op t.signed
  | binary op l r => binary op l.signed r.signed
  | assign op l r => assign op l.signed r.signed
  | sequence l r => sequence l.signed r.signed
  | choice c t f => choice c.signed t.signed f.signed
  | swizzle t name => swizzle t.signed name

/-- A tree as it is printed. -/
def printed : Tree → Phrase
  | literal c => if c.isNegative then .prefixed .minus (.literal c.magnitude) else .literal c
  | var v => .var v
  | unary .minus t => .group (.prefixed .minus t.printed)
  | unary op t => if op.isPostfix then .stepped op t.printed else .prefixed op t.printed
  | binary op l r =>
    .group (.operation (.binary op) (l.printed.closeIf l.isAssignment)
      (r.printed.closeIf r.isAssignment))
  | assign op l r => .operation (.assign op) l.printed r.printed
  | sequence l r => .group (.operation .sequence l.printed r.printed)
  | choice c t f =>
    .group (.choice (c.printed.closeIf c.isAssignment) (t.printed.closeIf t.isAssignment)
      (f.printed.closeIf f.isAssignment))
  | swizzle t name => .swizzle t.printed name

/-- The sign that a printed tree begins with. A minus sign stands in parentheses, except where it
belongs to an integer. -/
def sign? : Tree → Option UnaryOp
  | literal c => if c.isNegative then some .minus else none
  | unary .minus _ => none
  | unary op t => if op.isPostfix then t.sign? else some op
  | swizzle t _ | assign _ t _ => t.sign?
  | _ => none

def isStepped : Tree → Bool
  | unary op _ => op.isPostfix
  | _ => false

/-- Whether a selection or a step behind a printed tree applies to the whole of it. -/
def isSelectable : Tree → Bool
  | literal c => !c.isNegative
  | unary op t => op == .minus || !op.isPostfix && t.isStepped
  | assign .. => false
  | _ => true

/-- An integer that a point behind it turns into another number. -/
def isBare : Tree → Bool
  | literal (.integer .int _) => true
  | _ => false

/-- Whether every operator of a printed tree is applied to what it is applied to in the tree: no
sign stands in front of an assignment, or of a sign that it runs together with; steps and swizzles
apply to the whole of what is in front of them, and a point is never taken for a part of a number.
-/
def isClear : Tree → Bool
  | literal _ | var _ => true
  | unary op t => t.isClear &&
    if op.isPostfix then t.isSelectable else !t.isAssignment && !t.sign?.any op.absorbs
  | swizzle t _ => t.isClear && t.isSelectable && !t.isBare
  | binary _ l r | assign _ l r | sequence l r => l.isClear && r.isClear
  | choice c t f => c.isClear && t.isClear && f.isClear

/-- Whether a tree consists of integers, variables of scalar and vector types, all operators but the
exclusive or of truth values, choices and swizzles. Only variables that may be written to, or
components of them, are assigned to. -/
def IsPlain (s : Shader) : Tree → Prop
  | literal c => c.isInteger
  | var v => ∃ b, (s.var v).type = .builtin b ∧ (b.isScalar ∨ b.isVector)
  | unary _ t => t.IsPlain s
  | binary op l r => op ≠ .logicalXor ∧ l.IsPlain s ∧ r.IsPlain s
  | assign _ l r => (∃ v, l.target? = some v ∧ s.IsWritable v) ∧ l.IsPlain s ∧ r.IsPlain s
  | sequence l r => l.IsPlain s ∧ r.IsPlain s
  | choice c t f => c.IsPlain s ∧ t.IsPlain s ∧ f.IsPlain s
  | swizzle t name =>
    isWord name.toList ∧ Lexeme.ofWord name = .ident name ∧ t.IsPlain s

variable {s : Shader} {t : Tree}

theorem tree_printed (t : Tree) : t.printed.tree = t.signed := by
  induction t with
  | literal c =>
      unfold printed signed
      split <;> rfl
  | var => rfl
  | unary op t ih => cases op <;> exact congrArg (unary _) ih
  | binary op l r ihl ihr =>
      simp only [printed, signed, Phrase.tree, Phrase.tree_closeIf, ihl, ihr]
  | choice c t f ihc iht ihf =>
      simp only [printed, signed, Phrase.tree, Phrase.tree_closeIf, ihc, iht, ihf]
  | assign op l r ihl ihr | sequence l r ihl ihr =>
      simp only [printed, signed, Phrase.tree, ihl, ihr]
  | swizzle t name ih => simp only [printed, signed, Phrase.tree, ih]

theorem level_printed (t : Tree) : t.printed.level = if t.isAssignment then 2 else 15 := by
  cases t with
  | literal c =>
      unfold printed
      split <;> rfl
  | unary op t => cases op <;> rfl
  | _ => rfl

theorem level_closeIf_printed (t : Tree) :
    (t.printed.closeIf t.isAssignment).level = 15 := by
  rw [Phrase.level_closeIf, level_printed]
  split <;> rfl

theorem isAssignment_of_target {v : VarId} (h : t.target? = some v) : t.isAssignment = false := by
  cases t <;> first | rfl | cases h

theorem isClosed_printed (h : t.isSelectable) : t.printed.isClosed := by
  cases t with
  | literal c =>
      unfold printed
      split
      · next hneg => rw [isSelectable, hneg] at h; cases h
      · rfl
  | unary op t =>
      have hstepped (h : t.isStepped) : ∃ op' t', t.printed = .stepped op' t' := by
        cases t with
        | unary op t => cases op <;> first | exact ⟨_, _, rfl⟩ | cases h
        | _ => cases h
      cases op with
      | minus => rfl
      | postIncrement | postDecrement => cases h
      | _ =>
          obtain ⟨op', t', ht⟩ := hstepped h
          simp only [printed, ht]
          rfl
  | assign => cases h
  | _ => rfl

theorem sign?_printed (t : Tree) : t.printed.sign? = t.sign? := by
  induction t with
  | literal c =>
      unfold printed sign?
      split <;> rfl
  | unary op t ih => cases op <;> first | rfl | exact ih
  | swizzle t name ih => exact ih
  | assign op l r ihl _ => exact ihl
  | _ => rfl

theorem endsBare_printed (h : t.isSelectable) (hbare : t.isBare = false) :
    t.printed.endsBare = false := by
  cases t with
  | literal c =>
      unfold printed
      rw [isSelectable, Bool.not_eq_true'] at h
      rw [h, if_neg Bool.false_ne_true]
      cases c with
      | integer k bits => cases k <;> first | rfl | cases hbare
      | _ => rfl
  | unary op t =>
      cases op with
      | minus | postIncrement | postDecrement => rfl
      | _ =>
          cases t with
          | unary op t => cases op <;> first | rfl | cases h
          | _ => cases h
  | assign => cases h
  | _ => rfl

theorem grouped_printed (ht : t.IsPlain s) (hclear : t.isClear) : t.printed.Grouped := by
  induction t with
  | literal c =>
      unfold printed
      split
      · exact ⟨rfl, trivial, rfl⟩
      · trivial
  | var => trivial
  | unary op t ih =>
      obtain ⟨hclear, hop⟩ := Bool.and_eq_true_iff.1 hclear
      have hgrouped := ih ht hclear
      have hprefix (h : t.isAssignment = false) : t.printed.level = 15 := by
        rw [level_printed, h]
        rfl
      cases op with
      | postIncrement | postDecrement => exact ⟨rfl, hgrouped, isClosed_printed hop⟩
      | _ =>
          obtain ⟨hassign, -⟩ := Bool.and_eq_true_iff.1 hop
          exact ⟨rfl, hgrouped, hprefix (by simpa using hassign)⟩
  | swizzle t name ih =>
      simp only [isClear, Bool.and_eq_true] at hclear
      exact ⟨ih ht.2.2 hclear.1.1, isClosed_printed hclear.1.2⟩
  | binary op l r ihl ihr =>
      obtain ⟨hl, hr⟩ := Bool.and_eq_true_iff.1 hclear
      have hreach : (InfixOp.binary op).binding ≤ (l.printed.closeIf l.isAssignment).reach :=
        Phrase.le_reach (by rw [level_closeIf_printed]; exact Nat.le_of_lt (InfixOp.binding_lt _))
          (by rw [level_closeIf_printed]; decide) fun h => by
            rw [level_closeIf_printed] at h
            cases h
      refine ⟨InfixOp.noConfusion, Phrase.grouped_closeIf (ihl ht.2.1 hl) _,
        Phrase.grouped_closeIf (ihr ht.2.2 hr) _, hreach, ?_, ?_⟩
      · rw [level_closeIf_printed]
        decide
      · show (InfixOp.binary op).binding < _
        rw [level_closeIf_printed]
        exact InfixOp.binding_lt _
  | assign op l r ihl ihr =>
      obtain ⟨hl, hr⟩ := Bool.and_eq_true_iff.1 hclear
      obtain ⟨⟨v, htarget, -⟩, htl, htr⟩ := ht
      have hlevel : l.printed.level = 15 := by
        rw [level_printed, isAssignment_of_target htarget]
        rfl
      have hlevel' := level_printed r
      refine ⟨InfixOp.noConfusion, ihl htl hl, ihr htr hr,
        Phrase.le_reach (by rw [hlevel]; exact (by decide : 2 ≤ 15)) (by omega) (by omega), ?_, ?_⟩
      · split at hlevel' <;> omega
      · show l.printed.level = 15 ∧ 2 ≤ r.printed.level
        split at hlevel' <;> omega
  | sequence l r ihl ihr =>
      obtain ⟨hl, hr⟩ := Bool.and_eq_true_iff.1 hclear
      have hlevel := level_printed l
      have hlevel' := level_printed r
      have hbinding : InfixOp.sequence.binding = 1 := rfl
      refine ⟨InfixOp.noConfusion, ihl ht.1 hl, ihr ht.2 hr,
        Phrase.le_reach ?_ ?_ fun _ => Nat.le_refl _, ?_, ?_⟩
      · split at hlevel <;> omega
      · split at hlevel <;> omega
      · split at hlevel' <;> omega
      · show InfixOp.sequence.binding < r.printed.level
        split at hlevel' <;> omega
  | choice c t f ihc iht ihf =>
      simp only [isClear, Bool.and_eq_true] at hclear
      exact ⟨Phrase.grouped_closeIf (ihc ht.1 hclear.1.1) _,
        Phrase.grouped_closeIf (iht ht.2.1 hclear.1.2) _,
        Phrase.grouped_closeIf (ihf ht.2.2 hclear.2) _, by rw [level_closeIf_printed]; decide,
        by rw [level_closeIf_printed]; decide⟩

theorem apart_closeIf {name : VarId → String} {p : Phrase} (hp : p.Apart name) (close : Bool) :
    (p.closeIf close).Apart name := by
  cases close <;> exact hp

theorem apart_printed {scopes : List (List VarId)} (ht : t.IsPlain s) (hclear : t.isClear)
    (hvars : ∀ v ∈ t.vars, s.IsNamed scopes v) :
    t.printed.Apart fun v => (s.var v).name := by
  induction t with
  | literal c =>
      cases c with
      | integer k bits =>
          unfold printed
          split
          · exact ⟨rfl, rfl, fun sign h => by cases h⟩
          · rfl
      | bool | real => cases ht
  | var v => exact ⟨(hvars v List.mem_cons_self).isWord, (hvars v List.mem_cons_self).ofWord⟩
  | unary op t ih =>
      obtain ⟨hclear, hop⟩ := Bool.and_eq_true_iff.1 hclear
      have hapart := ih ht hclear hvars
      have hsign (h : (!t.isAssignment && !t.sign?.any op.absorbs) = true) :
          ∀ sign ∈ t.printed.sign?, op.absorbs sign = false := by
        intro sign hsign
        rw [sign?_printed, Option.mem_def] at hsign
        simpa [hsign] using (Bool.and_eq_true_iff.1 h).2
      cases op with
      | postIncrement | postDecrement => exact ⟨rfl, hapart⟩
      | _ => exact ⟨rfl, hapart, hsign hop⟩
  | swizzle t name ih =>
      simp only [isClear, Bool.and_eq_true, Bool.not_eq_true'] at hclear
      exact ⟨ih ht.2.2 hclear.1.1 hvars, endsBare_printed hclear.1.2 hclear.2, ht.1, ht.2.1⟩
  | binary op l r ihl ihr =>
      obtain ⟨hl, hr⟩ := Bool.and_eq_true_iff.1 hclear
      exact ⟨InfixOp.noConfusion,
        apart_closeIf (ihl ht.2.1 hl fun v hv => hvars v (List.mem_append_left _ hv)) _,
        apart_closeIf (ihr ht.2.2 hr fun v hv => hvars v (List.mem_append_right _ hv)) _⟩
  | assign op l r ihl ihr =>
      obtain ⟨hl, hr⟩ := Bool.and_eq_true_iff.1 hclear
      exact ⟨InfixOp.noConfusion, ihl ht.2.1 hl fun v hv => hvars v (List.mem_append_left _ hv),
        ihr ht.2.2 hr fun v hv => hvars v (List.mem_append_right _ hv)⟩
  | sequence l r ihl ihr =>
      obtain ⟨hl, hr⟩ := Bool.and_eq_true_iff.1 hclear
      exact ⟨InfixOp.noConfusion, ihl ht.1 hl fun v hv => hvars v (List.mem_append_left _ hv),
        ihr ht.2 hr fun v hv => hvars v (List.mem_append_right _ hv)⟩
  | choice c t f ihc iht ihf =>
      simp only [isClear, Bool.and_eq_true] at hclear
      exact ⟨apart_closeIf (ihc ht.1 hclear.1.1 fun v hv => hvars v
          (List.mem_append_left _ (List.mem_append_left _ hv))) _,
        apart_closeIf (iht ht.2.1 hclear.1.2 fun v hv => hvars v
          (List.mem_append_left _ (List.mem_append_right _ hv))) _,
        apart_closeIf (ihf ht.2.2 hclear.2 fun v hv => hvars v (List.mem_append_right _ hv)) _⟩

end Tree

end ShaderBridge
