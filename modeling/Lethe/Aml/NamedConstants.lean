import Lethe.Aml.Declarations
import Lethe.Aml.Decode
import Lethe.Aml.Expression
import Lethe.Aml.DataObjects

/-!
# Constants and their names

An integer constant is read by `term_arg_to_int` where it stands. A Name term stores it as a
variable, which is read back by `term_arg_to_int` through the name and by `variable_to_int` of
`lethe-aml/aml/interface.c`.
-/

namespace Lethe

/-- `variable_to_int`. -/
def variableToInt (variable_ : AmlVariable) : Nat :=
  match variable_.data with
  | .byte v => v
  | .integer v => v
  | .shortInt v => v
  | .longInt v => v
  | _ => 2 ^ 64 - 1

theorem AmlData.Holds.variableToInt {data : AmlData} (h : data.Holds v) :
    variableToInt { label, data } = v.toNat := by
  cases h <;> simp [Lethe.variableToInt]

/-- What a Name term stores holds a number, which is that of the constant except for `Ones`. -/
theorem IntConst.data_holds {v : IntConst} (hv : v.Short) :
    ∃ w, v.data.Holds w ∧ (w.toNat = v.value ↔ v ≠ .ones) := by
  cases v with
  | zero => exact ⟨_, .byte 0, iff_of_true rfl IntConst.noConfusion⟩
  | one => exact ⟨_, .byte 1, iff_of_true rfl IntConst.noConfusion⟩
  | ones => exact ⟨_, .byte 0xFF, iff_of_false (by decide) fun h => h rfl⟩
  | byte v => exact ⟨_, .byte v, iff_of_true (by simp [value]) IntConst.noConfusion⟩
  | word v => exact ⟨_, .shortInt v, iff_of_true (by simp [value]) IntConst.noConfusion⟩
  | dword v => exact ⟨_, .integer v, iff_of_true (by simp [value]) IntConst.noConfusion⟩
  | qword v => exact hv.elim

namespace Aml

variable {host : AmlHost} {s : AmlState} {ns c p q r fuel : Nat} {n : NameString} {seg : NameSeg}
  {v : IntConst}

/-- `term_arg_to_int` at `p`. -/
def intAt (host : AmlHost) (fuel ns p : Nat) : Aml Nat := do
  setCode ns p
  termArgToInt host fuel ns

/-- `parse_next` at `q`. -/
def nextAt (host : AmlHost) (parse : Nat → Nat → Nat → Aml Unit) (fuel ns q : Nat) : Aml Unit := do
  setCode ns q
  parseNext host parse fuel ns

/-- The constant at `p`, and the name at `r` after the Name term at `q`, are both read as `v`, and
so is the stored variable. -/
def ConstantAgrees (host : AmlHost) (parse : Nat → Nat → Nat → Aml Unit) (fuel : Nat) (s : AmlState)
    (ns : Nat) (seg : NameSeg) (p q r : Nat) : Prop :=
  ∃ v, Wp (intAt host fuel ns p) (fun v' _ => v' = v) (fun _ _ => False) s ∧
    Wp (nextAt host parse fuel ns q) (fun _ s' =>
      (∃ var, (s'.tree.nodes ns).children seg.key = some (.name var) ∧ variableToInt var = v) ∧
      Wp (intAt host fuel ns r) (fun v' _ => v' = v) (fun _ _ => False) s') (fun _ _ => False) s

/-- The condition on what is read at `p`, where the run is known. -/
theorem intAt_iff {a b : Nat}
    (h : Takes (fun _ _ => False) (termArgToInt host fuel ns) a ns e (s.setCode ns p)) :
    Wp (intAt host fuel ns p) (fun x _ => x = b) (fun _ _ => False) s ↔ a = b := by
  obtain ⟨_, s', hok, rfl, -⟩ := wp_returns.mp h
  rw [intAt, wp_bind, wp_setCode, wp_of_ok hok]

theorem nextAt_name (parse : Nat → Nat → Nat → Aml Unit) (s : AmlState) (hn : n.Names seg.path)
    (hfuel : 2 ≤ fuel) (hat : host.ReadsAt q (0x08 :: (n.encode ++ v.encode))) :
    Wp (nextAt host parse fuel ns q)
      (fun _ s' =>
        s'.tree = s.tree.setChild ns seg.key (.name { label := seg.key, data := v.data }))
      (fun _ _ => False) s := by
  obtain ⟨hop, hterm⟩ := readsAt_cons.mp hat
  obtain ⟨hname, hconst⟩ := readsAt_append.mp hterm
  have hcode : (s.setCode ns q).code ns = q := Advanced.setCode.code
  rw [nextAt, wp_bind, wp_setCode, wp_parseNext_op hop (by decide) hcode]
  have hbehind : ((((s.setCode ns q).emit (.enter q)).setCode ns (q + 1)).setCode ns
      (q + 1 + n.encode.length)).tick.code ns = q + 1 + n.encode.length := Advanced.setCode.code
  have hpos : 0 < fuel := by omega
  obtain ⟨_, s', hdata, rfl, -⟩ := wp_returns.mp
    (parseDataObject_const (.of_lt hpos) hconst hbehind)
  exact defName_tree hn hfuel hname Advanced.setCode.code hdata

/-- The variable is found from its own namespace. -/
theorem variable_setChild {t : Tree} (ht : t.Nested) (hv : v.data.Holds w) :
    (t.setChild ns seg.key (.name { label := seg.key, data := v.data })).Variable ns seg w := by
  refine ⟨seg.key, v.data, NameSeg.resolve_of_bound .children ht.setChild ?_, hv⟩
  exact Tree.declares_setChild.1

/-- An integer constant has one value in all three places exactly if it is neither `Ones` nor a
`qword`. -/
theorem constantAgrees_iff (host : AmlHost) (parse : Nat → Nat → Nat → Aml Unit) (v : IntConst)
    (n : NameString) (seg : NameSeg) (s : AmlState) (ns p q r : Nat) (hn : n.Names seg.path)
    (ht : s.tree.Nested) (hns : ns < s.tree.next) (hconst : host.ReadsAt p v.encode)
    (hterm : host.ReadsAt q (0x08 :: (n.encode ++ v.encode)))
    (hname : host.ReadsAt r seg.key.bytes) :
    ∃ bound, ∀ fuel, bound ≤ fuel →
      (ConstantAgrees host parse fuel s ns seg p q r ↔ v ≠ .ones ∧ v.Short) := by
  refine ⟨2, fun fuel hfuel => ?_⟩
  by_cases hv : v.Short
  · have hpos : 0 < fuel := by omega
    obtain ⟨w, hw, hvalue⟩ := v.data_holds hv
    have hinline := takes_termArgToInt_const (E := fun _ _ => False) (s := s.setCode ns p) hv
      (.of_lt hpos) hconst Advanced.setCode.code
    obtain ⟨_, s', hok, htree⟩ := wp_returns.mp (nextAt_name parse s hn hfuel hterm)
    have hnamed : Takes (fun _ _ => False) (termArgToInt host fuel ns) w.toNat ns
        (r + seg.key.bytes.length) (s'.setCode ns r) := by
      have hvar : s'.tree.Variable ns seg w := htree ▸ variable_setChild ht hw
      have heval : Evaluates (fun _ _ => False) host s'.tree ns (fun _ => w) (.name seg) := by
        refine evaluates (htree ▸ ht.setChild) (htree ▸ hns) fun seg' h => ?_
        exact List.mem_singleton.mp h ▸ hvar
      exact heval (.of_lt hpos) hname rfl Advanced.setCode.code
    simp only [ConstantAgrees, intAt_iff hinline, wp_of_ok hok, intAt_iff hnamed,
      exists_eq_left', htree]
    rw [and_iff_left hv, ← hvalue]
    exact and_iff_right_of_imp fun h => ⟨_, Tree.declares_setChild.1, hw.variableToInt.trans h⟩
  · refine iff_of_false (fun ⟨x, hinline, _⟩ => ?_) fun h => hv h.2
    rw [intAt, wp_bind, wp_setCode] at hinline
    cases v with
    | qword v =>
      exact (termArgToInt_qword (Q := fun _ _ => False) hconst
        Advanced.setCode.code).not_returns hinline
    | _ => exact hv trivial

/-- `NNNN`. -/
def nnnnSeg : NameSeg := ⟨keyOfChars 'N' 'N' 'N' 'N', by decide⟩

/-- `Ones`, `Name (NNNN, Ones)` and `NNNN`, one after the other. -/
def onesHost : AmlHost where
  table := [0xFF] ++ 0x08 :: (nnnnSeg.key.bytes ++ [0xFF]) ++ nnnnSeg.key.bytes
  uninit _ _ := 0
  readMem _ _ _ := none
  readIo _ _ _ := 0

/-- The same with the constant `0xFE`. -/
def byteHost : AmlHost where
  table := [0x0A, 0xFE] ++ 0x08 :: (nnnnSeg.key.bytes ++ [0x0A, 0xFE]) ++ nnnnSeg.key.bytes
  uninit _ _ := 0
  readMem _ _ _ := none
  readIo _ _ _ := 0

theorem constantAgrees_iff_nnnn : (∃ bound, ∀ fuel, bound ≤ fuel →
      (ConstantAgrees onesHost (parseTermlist onesHost 16) fuel initAmlState root nnnnSeg 0 1 7 ↔
        IntConst.ones ≠ .ones ∧ IntConst.ones.Short)) ∧
    ∃ bound, ∀ fuel, bound ≤ fuel →
      ConstantAgrees byteHost (parseTermlist byteHost 16) fuel initAmlState root nnnnSeg 0 2 9 := by
  refine ⟨constantAgrees_iff onesHost (parseTermlist onesHost 16) .ones ⟨.parents 0, .seg nnnnSeg⟩
    nnnnSeg initAmlState root 0 1 7 ⟨rfl, rfl⟩ initAmlNamespaces_nested (by decide) ⟨_, rfl⟩
    ⟨_, rfl⟩ ⟨_, rfl⟩, ?_⟩
  obtain ⟨bound, h⟩ := constantAgrees_iff byteHost (parseTermlist byteHost 16) (.byte 0xFE)
    ⟨.parents 0, .seg nnnnSeg⟩ nnnnSeg initAmlState root 0 2 9 ⟨rfl, rfl⟩ initAmlNamespaces_nested
    (by decide) ⟨_, rfl⟩ ⟨_, rfl⟩ ⟨_, rfl⟩
  exact ⟨bound, fun fuel hfuel => (h fuel hfuel).mpr ⟨by simp, trivial⟩⟩

/-- `Ones` is `0xFF` by its name. -/
theorem ones_disagrees :
    ¬ConstantAgrees onesHost (parseTermlist onesHost 16) 16 initAmlState root nnnnSeg 0 1 7 := by
  have hinline : (match intAt onesHost 16 root 0 initAmlState with
      | .ok v _ => v
      | .error _ _ => 0) = 2 ^ 64 - 1 := by decide
  have hnamed : (match (nextAt onesHost (parseTermlist onesHost 16) 16 root 1 >>= fun _ =>
        intAt onesHost 16 root 7) initAmlState with
      | .ok v _ => v
      | .error _ _ => 0) = 0xFF := by decide
  rintro ⟨v, h, h'⟩
  obtain ⟨_, s₁, hok, rfl⟩ := wp_returns.mp h
  obtain ⟨_, s₂, hok', rfl⟩ :=
    wp_returns.mp (wp_bind.mpr (h'.mono (fun _ _ => And.right) fun _ _ => id))
  rw [hok] at hinline
  rw [hok'] at hnamed
  exact absurd (hinline.symm.trans hnamed) (by decide)

end Aml

end Lethe
