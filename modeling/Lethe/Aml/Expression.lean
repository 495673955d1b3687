import Lethe.Aml.Resolution

/-!
# Integer expressions

`Expr` is the syntax of the expressions of `term_arg_to_int` with their encoding in prefix order,
and `Expr.eval` their meaning as 64-bit numbers, given the values of the names. A name is a variable
that the search upwards from the namespace finds.
-/

namespace Lethe

inductive Expr
  | const (v : IntConst) (h : v.Short)
  | name (seg : NameSeg)
  | lnot (e : Expr)
  | lequal (l r : Expr)
  | land (l r : Expr)
  | lless (l r : Expr)
  | lgreater (l r : Expr)

namespace Expr

def encode : Expr → List UInt8
  | const v _ => v.encode
  | name seg => seg.key.bytes
  | lnot e => 0x92 :: e.encode
  | lequal l r => 0x93 :: (l.encode ++ r.encode)
  | land l r => 0x90 :: (l.encode ++ r.encode)
  | lless l r => 0x95 :: (l.encode ++ r.encode)
  | lgreater l r => 0x94 :: (l.encode ++ r.encode)

/-- The value of an expression whose names have the values `env`. -/
def eval (env : HashKey → UInt64) : Expr → UInt64
  | const v _ => UInt64.ofNat v.value
  | name seg => env seg.key
  | lnot e => if e.eval env = 0 then 1 else 0
  | lequal l r => if l.eval env = r.eval env then 1 else 0
  | land l r => if l.eval env ≠ 0 ∧ r.eval env ≠ 0 then 1 else 0
  | lless l r => if l.eval env < r.eval env then 1 else 0
  | lgreater l r => if l.eval env > r.eval env then 1 else 0

def names : Expr → List NameSeg
  | const _ _ => []
  | name seg => [seg]
  | lnot e => e.names
  | lequal l r | land l r | lless l r | lgreater l r => l.names ++ r.names

def depth : Expr → Nat
  | const _ _ | name _ => 0
  | lnot e => e.depth + 1
  | lequal l r | land l r | lless l r | lgreater l r => max l.depth r.depth + 1

end Expr

/-- The values of the variables that `term_arg_to_int` takes for integers. -/
inductive AmlData.Holds : AmlData → UInt64 → Prop
  | byte (v : UInt8) : Holds (.byte v.toNat) v.toUInt64
  | shortInt (v : UInt16) : Holds (.shortInt v.toNat) v.toUInt64
  | integer (v : UInt32) : Holds (.integer v.toNat) v.toUInt64

/-- From `ns` upwards, `seg` is the name of a variable with the value `v`. -/
def Tree.Variable (t : Tree) (ns : Nat) (seg : NameSeg) (v : UInt64) : Prop :=
  ∃ label data, Path.resolve ⟨.here, [], seg⟩ .children t ns = some (.name { label, data }) ∧
    data.Holds v

namespace Aml

variable {host : AmlHost} {s : AmlState} {ns c p fuel : Nat} {E : AmlStop → AmlState → Prop}

/-- The result of a condition, as the code and as the meaning of an operator have it. -/
theorem toNat_ite {b : Bool} {P : Prop} [Decidable P] (h : b = true ↔ P) :
    (if P then (1 : UInt64) else 0).toNat = truth b := by
  by_cases hp : P
  · rw [if_pos hp, truth, if_pos (h.mpr hp)]
    rfl
  · rw [if_neg hp, truth, if_neg (mt h.mp hp)]
    rfl

theorem toNat_eq_zero {v : UInt64} : v.toNat = 0 ↔ v = 0 := UInt64.toNat_inj (b := 0)

theorem land_iff {v w : UInt64} : (v.toNat != 0 && w.toNat != 0) = true ↔ v ≠ 0 ∧ w ≠ 0 := by
  rw [Bool.and_eq_true, bne_iff_ne, bne_iff_ne, Ne, Ne, toNat_eq_zero, toNat_eq_zero]

theorem objectToInt_holds {data : AmlData} {v : UInt64} (h : data.Holds v) :
    objectToInt host (.name { label, data }) = pure v.toNat := by
  cases h <;> simp [objectToInt]

/-- A character of a name is no opcode. -/
theorem intOp_of_validChar (h : validChar b = true) : IntOp.ofByte b = .name := by
  have hne : b ≠ 0x00 ∧ b ≠ 0x01 ∧ b ≠ 0xFF ∧ b ≠ 0x0A ∧ b ≠ 0x0B ∧ b ≠ 0x0C ∧ b ≠ 0x92 ∧ b ≠ 0x93 ∧
      b ≠ 0x90 ∧ b ≠ 0x95 ∧ b ≠ 0x94 := by
    refine ⟨?_, ?_, ?_, ?_, ?_, ?_, ?_, ?_, ?_, ?_, ?_⟩ <;> rintro rfl <;>
      exact absurd h (by decide)
  simp only [IntOp.ofByte, hne, if_false]

theorem takes_nameToInt {seg : NameSeg} (ht : s.tree.Nested) (hns : ns < s.tree.next)
    (hname : s.tree.Variable ns seg v) (hat : host.ReadsAt c seg.key.bytes) (hc : s.code ns = c) :
    Takes E (nameToInt host ns) v.toNat ns (c + keyLen) s := by
  obtain ⟨label, data, hresolve, hdata⟩ := hname
  have hlocate : locateObject .children s.tree ns { inner := seg.key.bytes } =
      .ok (some (.name { label, data }), { inner := seg.key.bytes }) := by
    have h := Path.locateObject_eq ⟨.here, [], seg⟩ .children ⟨0, 0, 0, 0⟩ ht hns
    rw [hresolve, if_pos (.inl rfl)] at h
    exact h
  simp only [Takes, nameToInt, wp_bind, wp_code, hc]
  refine wp_readBytes_of_readsAt hat rfl ?_
  rw [wp_bind, wp_ask_of_ok hlocate]
  dsimp only
  rw [orExit, pure_bind, wp_bind, wp_setCode, objectToInt_holds hdata]
  exact ⟨rfl, .setCode⟩

/-- Wherever `e` stands, `term_arg_to_int` gives its value in the namespace `ns` of the tree `t`. -/
def Evaluates (E : AmlStop → AmlState → Prop) (host : AmlHost) (t : Tree) (ns : Nat)
    (env : HashKey → UInt64) (e : Expr) : Prop :=
  ∀ ⦃fuel c s⦄, Fueled E e.depth fuel → host.ReadsAt c e.encode → s.tree = t → s.code ns = c →
    Takes E (termArgToInt host fuel ns) (e.eval env).toNat ns (c + e.encode.length) s

variable {t : Tree} {env : HashKey → UInt64} {e l r : Expr}

/-- The second operand begins where the first ends. -/
theorem Evaluates.operands {f : Nat → Nat → Nat} (hl : Evaluates E host t ns env l)
    (hr : Evaluates E host t ns env r) (hfuel : Fueled E (max l.depth r.depth) fuel)
    (hat : host.ReadsAt c (l.encode ++ r.encode)) (ht : s.tree = t) (hc : s.code ns = c) :
    Takes E (do
      let term₁ ← termArgToInt host fuel ns
      let term₂ ← termArgToInt host fuel ns
      pure (f term₁ term₂)) (f (l.eval env).toNat (r.eval env).toNat) ns
      (c + (l.encode ++ r.encode).length) s := by
  obtain ⟨hat₁, hat₂⟩ := readsAt_append.mp hat
  rw [List.length_append, ← Nat.add_assoc]
  refine (hl (hfuel.mono (Nat.le_max_left _ _)) hat₁ ht hc).seq fun s₁ h₁ => ?_
  have ht₁ : s₁.tree = t := h₁.tree.trans ht
  refine (hr (hfuel.mono (Nat.le_max_right _ _)) hat₂ ht₁ h₁.code).seq fun s₂ h₂ => ?_
  exact takes_pure h₂.code

/-- An operator in front of its operands. -/
theorem Evaluates.operator {op : UInt8} {rest : List UInt8} {d : Nat}
    {f : Nat → Nat → UInt8 → Aml Nat} (hcode : e.encode = op :: rest) (hdepth : e.depth = d + 1)
    (heq : ∀ fuel, termArgToInt host (fuel + 1) ns = do
      let c ← code ns
      let b ← nextByte host ns
      f fuel c b)
    (hf : ∀ ⦃fuel c p s⦄, Fueled E d fuel → host.ReadsAt c rest → s.tree = t → s.code ns = c →
      Takes E (f fuel p op) (e.eval env).toNat ns (c + rest.length) s) :
    Evaluates E host t ns env e := by
  intro fuel c s hfuel hat hs hc
  rw [hdepth] at hfuel
  rw [hcode] at hat ⊢
  obtain ⟨hb, hat'⟩ := readsAt_cons.mp hat
  cases fuel with
  | zero => exact (hfuel.mono (Nat.zero_le _)).zero _ rfl
  | succ fuel =>
    rw [heq, Takes, wp_bind, wp_code]
    have h := (takes_nextByte hb hc).seq fun s₁ h₁ =>
      hf (p := s.code ns) hfuel.pred hat' (h₁.tree.trans hs) h₁.code
    rwa [Nat.add_assoc, Nat.add_comm 1] at h

/-- An operator with two operands. -/
theorem Evaluates.binary {op : UInt8} {f : Nat → Nat → UInt8 → Aml Nat} (g : Nat → Nat → Nat)
    (hl : Evaluates E host t ns env l) (hr : Evaluates E host t ns env r)
    (hcode : e.encode = op :: (l.encode ++ r.encode)) (hdepth : e.depth = max l.depth r.depth + 1)
    (hval : (e.eval env).toNat = g (l.eval env).toNat (r.eval env).toNat)
    (heq : ∀ fuel, termArgToInt host (fuel + 1) ns = do
      let c ← code ns
      let b ← nextByte host ns
      f fuel c b)
    (hf : ∀ fuel c, f fuel c op = do
      let term₁ ← termArgToInt host fuel ns
      let term₂ ← termArgToInt host fuel ns
      pure (g term₁ term₂)) :
    Evaluates E host t ns env e := by
  refine .operator hcode hdepth heq fun fuel c p s hfuel hat hs hc => ?_
  rw [hf, hval]
  exact Evaluates.operands hl hr hfuel hat hs hc

/-- The induction over the expression. -/
theorem evaluates (ht : t.Nested) (hns : ns < t.next)
    (hnames : ∀ seg ∈ e.names, t.Variable ns seg (env seg.key)) : Evaluates E host t ns env e := by
  induction e with
  | const v hv =>
    intro fuel c s hfuel hat hs hc
    have hlt : v.value < 2 ^ 64 := by
      cases v with
      | byte v => exact Nat.lt_trans v.toNat_lt (by decide)
      | word v => exact Nat.lt_trans v.toNat_lt (by decide)
      | dword v => exact Nat.lt_trans v.toNat_lt (by decide)
      | qword v => exact hv.elim
      | _ => decide
    have hval : (Expr.eval env (.const v hv)).toNat = v.value :=
      UInt64.toNat_ofNat'.trans (Nat.mod_eq_of_lt hlt)
    rw [hval]
    exact takes_termArgToInt_const hv hfuel hat hc
  | name seg =>
    intro fuel c s hfuel hat hs hc
    subst hs
    cases fuel with
    | zero => exact hfuel.zero _ rfl
    | succ fuel =>
      obtain ⟨hb, -⟩ := readsAt_cons.mp hat
      rw [termArgToInt, Takes, wp_bind, wp_code, hc]
      refine (takes_nextByte hb hc).seq fun s₁ h₁ => ?_
      rw [intOp_of_validChar seg.validChar_c0]
      refine takes_setCode.seq fun s₂ h₂ => ?_
      have ht₂ : s₂.tree = s.tree := h₂.tree.trans h₁.tree
      rw [← ht₂] at ht hns hnames
      exact takes_nameToInt ht hns (hnames seg (.head _)) hat h₂.code
  | lnot e ih =>
    refine .operator rfl rfl (fun _ => by rw [termArgToInt]) fun fuel c p s hfuel hat hs hc => ?_
    refine (ih hnames hfuel hat hs hc).seq fun s₁ h₁ => ?_
    rw [Expr.eval, toNat_ite (beq_iff_eq.trans toNat_eq_zero)]
    exact takes_pure h₁.code
  | lequal l r ihl ihr =>
    obtain ⟨hl, hr⟩ := List.forall_mem_append.mp hnames
    exact .binary (fun m n => truth (m == n)) (ihl hl) (ihr hr) rfl rfl
      (toNat_ite (beq_iff_eq.trans UInt64.toNat_inj)) (fun _ => by rw [termArgToInt]) fun _ _ => rfl
  | land l r ihl ihr =>
    obtain ⟨hl, hr⟩ := List.forall_mem_append.mp hnames
    exact .binary (fun m n => truth (m != 0 && n != 0)) (ihl hl) (ihr hr) rfl rfl
      (toNat_ite land_iff) (fun _ => by rw [termArgToInt]) fun _ _ => rfl
  | lless l r ihl ihr =>
    obtain ⟨hl, hr⟩ := List.forall_mem_append.mp hnames
    exact .binary (fun m n => truth (m < n)) (ihl hl) (ihr hr) rfl rfl
      (toNat_ite (decide_eq_true_iff.trans UInt64.lt_iff_toNat_lt.symm))
      (fun _ => by rw [termArgToInt]) fun _ _ => rfl
  | lgreater l r ihl ihr =>
    obtain ⟨hl, hr⟩ := List.forall_mem_append.mp hnames
    exact .binary (fun m n => truth (m > n)) (ihl hl) (ihr hr) rfl rfl
      (toNat_ite (decide_eq_true_iff.trans UInt64.lt_iff_toNat_lt.symm))
      (fun _ => by rw [termArgToInt]) fun _ _ => rfl

/-- On every expression, whatever follows it, `term_arg_to_int` returns the value and leaves the
cursor behind the expression; the tree of namespaces and the other cursors do not change. -/
theorem termArgToInt_evaluates (host : AmlHost) (e : Expr) (env : HashKey → UInt64) (s : AmlState)
    (ns c : Nat) (ht : s.tree.Nested) (hns : ns < s.tree.next)
    (hnames : ∀ seg ∈ e.names, s.tree.Variable ns seg (env seg.key))
    (hat : host.ReadsAt c e.encode) (hc : s.code ns = c) :
    ∃ bound, ∀ fuel, bound ≤ fuel →
      Wp (termArgToInt host fuel ns) (fun v s' => v = (e.eval env).toNat ∧
        s'.code ns = c + e.encode.length ∧ s'.tree = s.tree ∧ ∀ n, n ≠ ns → s'.code n = s.code n)
        (fun _ _ => False) s := by
  refine ⟨e.depth + 1, fun fuel hfuel => ?_⟩
  refine (evaluates ht hns hnames (.of_lt hfuel) hat rfl hc).mono ?_ fun _ _ => id
  rintro v s' ⟨rfl, h⟩
  exact ⟨rfl, h.code, h.tree, h.code_of_ne⟩

/-- `LNot (LLess (ABCD, 7))` in `_PR_`, where `ABCD` is a variable of `root()`. -/
theorem termArgToInt_evaluates_upward :
    let abcd := keyOfChars 'A' 'B' 'C' 'D'
    let s := { initAmlState with
      tree := initAmlNamespaces.setChild root abcd (.name { label := abcd, data := .byte 5 }) }
    let host : AmlHost := ⟨[0x92, 0x95, 0x41, 0x42, 0x43, 0x44, 0x0A, 7, 0x14], fun _ _ => 0,
      fun _ _ _ => none, fun _ _ _ => 0⟩
    ∃ bound, ∀ fuel, bound ≤ fuel →
      Wp (termArgToInt host fuel 2) (fun v s' => v = 0 ∧ s'.code 2 = 8 ∧ s'.tree = s.tree ∧
        ∀ n, n ≠ 2 → s'.code n = s.code n) (fun _ _ => False) s := by
  intro abcd s host
  let seg : NameSeg := ⟨abcd, by decide⟩
  have hnames : ∀ seg' ∈ [seg], s.tree.Variable 2 seg' 5 := by
    intro seg' h
    rw [List.mem_singleton.mp h]
    exact ⟨abcd, .byte 5, rfl, .byte 5⟩
  have h := termArgToInt_evaluates host (.lnot (.lless (.name seg) (.const (.byte 7) trivial)))
    (fun _ => 5) s 2 0 initAmlNamespaces_nested.setChild (by decide) hnames
    ⟨[0x14], rfl⟩ rfl
  exact h

end Aml

end Lethe
