import Lethe.Aml.Grammar
import Lethe.Aml.Progress

/-!
# Reading from the table

The functions of the parser that read a name, a length or an argument change nothing but the cursor
of their namespace: `Advanced` says so of two states, and `Takes E x a ns p s` that from `s` the
function `x` gives `a` and leaves the cursor of `ns` at `p`, or stops with `E`. With an `E` that is
never true `x` returns; where it takes fuel, `Fueled E` asks for enough of it, or for an `E` that
has room for a run without. The rules are for the encodings of `Grammar`, followed by any bytes.
-/

namespace Lethe

/-- The table has these bytes from `p` on. -/
def AmlHost.ReadsAt (host : AmlHost) (p : Nat) (bytes : List UInt8) : Prop :=
  bytes <+: host.table.drop p

section
variable {host : AmlHost} {p : Nat} {as bs : List UInt8}

theorem readsAt_append : host.ReadsAt p (as ++ bs) ↔
    host.ReadsAt p as ∧ host.ReadsAt (p + as.length) bs := by
  simp only [AmlHost.ReadsAt, ← List.drop_drop]
  constructor
  · rintro ⟨rest, h⟩
    rw [← h, List.append_assoc, List.drop_left]
    exact ⟨⟨bs ++ rest, rfl⟩, ⟨rest, rfl⟩⟩
  · rintro ⟨⟨rest, h⟩, h'⟩
    rw [← h, List.drop_left] at h'
    rw [← h]
    exact (List.prefix_append_right_inj as).mpr h'

theorem readsAt_cons : host.ReadsAt p (b :: bs) ↔
    host.table[p]? = some b ∧ host.ReadsAt (p + 1) bs := by
  have h : host.ReadsAt p [b] ↔ host.table[p]? = some b := by
    rw [AmlHost.ReadsAt, ← List.head?_drop]
    cases host.table.drop p with
    | nil => simp
    | cons c cs => simp [List.cons_prefix_cons, eq_comm]
  rw [← h]
  change host.ReadsAt p ([b] ++ bs) ↔ _
  exact readsAt_append

theorem readsAt_ext : host.ReadsAt p (a :: b :: bs) ↔
    host.ReadsAt p [a, b] ∧ host.ReadsAt (p + 2) bs := by
  have h : host.ReadsAt p ([a, b] ++ bs) ↔ _ := readsAt_append
  exact h

theorem AmlHost.ReadsAt.take (h : host.ReadsAt p bs) : (host.table.drop p).take bs.length = bs :=
  (List.prefix_iff_eq_take.mp h).symm

theorem AmlHost.ReadsAt.le (h : host.ReadsAt p bs) :
    bs.length = 0 ∨ p + bs.length ≤ host.table.length := by
  have := List.IsPrefix.length_le h
  rw [List.length_drop] at this
  omega

end

/-- The type tag and the value of a constant; that of `Ones` is cut to a byte. -/
def IntConst.data : IntConst → AmlData
  | .zero => .byte 0
  | .one => .byte 1
  | .ones => .byte 0xFF
  | .byte v => .byte v.toNat
  | .word v => .shortInt v.toNat
  | .dword v => .integer v.toNat
  | .qword v => .longInt v.toNat

namespace Aml

/-- Nothing but the cursor of `ns`, which is at `p`, and the time have changed. -/
def Advanced (s : AmlState) (ns p : Nat) (s' : AmlState) : Prop :=
  ∃ clock, s' = { s with code := Function.update s.code ns p, clock }

/-- From `s`, `x` gives `a` and moves the cursor of `ns` to `p`, or it stops with `E`. -/
def Takes (E : AmlStop → AmlState → Prop) (x : Aml α) (a : α) (ns p : Nat) (s : AmlState) : Prop :=
  Wp x (fun v s' => v = a ∧ Advanced s ns p s') E s

/-- There is fuel for more than `n` steps, or to run out of it is one of the stops of `E`. -/
def Fueled (E : AmlStop → AmlState → Prop) (n fuel : Nat) : Prop :=
  n < fuel ∨ ∀ s, E .outOfFuel s

theorem Fueled.of_lt (h : n < fuel) : Fueled E n fuel := .inl h

theorem Fueled.mono (h : Fueled E n fuel) (hn : m ≤ n) : Fueled E m fuel :=
  h.imp_left (Nat.lt_of_le_of_lt hn)

theorem Fueled.pred (h : Fueled E (n + 1) (fuel + 1)) : Fueled E n fuel :=
  h.imp_left Nat.lt_of_succ_lt_succ

/-- Without fuel there has to be room for it. -/
theorem Fueled.zero (h : Fueled E n 0) (x : Aml α) (hx : x = throw .outOfFuel) : Wp x Q E s := by
  subst hx
  exact h.resolve_left (Nat.not_lt_zero n) s

variable {host : AmlHost} {s s' s'' : AmlState} {ns c p q fuel : Nat} {x : Aml α}
  {E : AmlStop → AmlState → Prop}

namespace Advanced

theorem code (h : Advanced s ns p s') : s'.code ns = p := by
  obtain ⟨clock, rfl⟩ := h
  exact Function.update_self ns p s.code

theorem code_of_ne (h : Advanced s ns p s') (n : Nat) (hn : n ≠ ns) : s'.code n = s.code n := by
  obtain ⟨clock, rfl⟩ := h
  exact Function.update_of_ne hn p s.code

theorem tree (h : Advanced s ns p s') : s'.tree = s.tree := by
  obtain ⟨clock, rfl⟩ := h
  rfl

theorem log (h : Advanced s ns p s') : s'.log = s.log := by
  obtain ⟨clock, rfl⟩ := h
  rfl

theorem trans (h : Advanced s ns p s') (h' : Advanced s' ns q s'') : Advanced s ns q s'' := by
  obtain ⟨clock, rfl⟩ := h
  obtain ⟨clock', rfl⟩ := h'
  exact ⟨clock', by rw [Function.update_idem]⟩

theorem setCode : Advanced s ns p (s.setCode ns p) := ⟨s.clock, rfl⟩

theorem tick (h : Advanced s ns p s') : Advanced s ns p s'.tick := by
  obtain ⟨clock, rfl⟩ := h
  exact ⟨clock + 1, rfl⟩

theorem refl (hc : s.code ns = p) : Advanced s ns p s := by
  subst hc
  exact ⟨s.clock, by rw [Function.update_eq_self]⟩

end Advanced

theorem Takes.bind {f : α → Aml β} {Q : β → AmlState → Prop} (h : Takes E x a ns p s)
    (hf : ∀ s', Advanced s ns p s' → Wp (f a) Q E s') : Wp (x >>= f) Q E s := by
  refine Wp.bind h ?_
  rintro _ s' ⟨rfl, h'⟩
  exact hf s' h'

/-- The rule for a sequence of reads. -/
theorem Takes.seq {f : α → Aml β} (h : Takes E x a ns p s)
    (hf : ∀ s', Advanced s ns p s' → Takes E (f a) b ns q s') : Takes E (x >>= f) b ns q s := by
  refine h.bind fun s' hs' => ?_
  refine (hf s' hs').mono ?_ fun _ _ => id
  rintro _ s'' ⟨rfl, hs''⟩
  exact ⟨rfl, hs'.trans hs''⟩

theorem Takes.map {f : α → β} (h : Takes E x a ns p s) : Takes E (f <$> x) (f a) ns p s := by
  rw [Takes, wp_map]
  refine h.mono ?_ fun _ _ => id
  rintro _ s' ⟨rfl, h'⟩
  exact ⟨rfl, h'⟩

theorem takes_pure (hc : s.code ns = p) : Takes E (pure a : Aml α) a ns p s := ⟨rfl, .refl hc⟩

theorem takes_setCode : Takes E (setCode ns p) () ns p s := ⟨rfl, .setCode⟩

theorem setCode_setCode : (s.setCode ns p).setCode ns q = s.setCode ns q := by
  rw [AmlState.setCode, AmlState.setCode, AmlState.setCode, Function.update_idem]

theorem wp_nextByte_of {Q : UInt8 → AmlState → Prop} (hb : host.table[c]? = some b)
    (hc : s.code ns = c) : Wp (nextByte host ns) Q E s ↔ Q b (s.setCode ns (c + 1)) := by
  subst hc
  simp only [nextByte, readByte, wp_bind, wp_code, hb, wp_pure, wp_setCode]

/-- The byte is there, or the read stops. -/
theorem nextByte_cases {Q : UInt8 → AmlState → Prop} (hc : s.code ns = c)
    (hok : ∀ b, host.table[c]? = some b → Q b (s.setCode ns (c + 1)))
    (hfault : host.table.length ≤ c → E .fault s) : Wp (nextByte host ns) Q E s := by
  cases hb : host.table[c]? with
  | some b => exact (wp_nextByte_of hb hc).mpr (hok b hb)
  | none =>
    subst hc
    simp only [nextByte, readByte, wp_bind, wp_code, hb]
    exact hfault (List.getElem?_eq_none_iff.mp hb)

theorem nextByte_returns {Q : UInt8 → AmlState → Prop} (hc : s.code ns = c) :
    Wp (nextByte host ns) Q (fun _ _ => False) s ↔
      ∃ b, host.table[c]? = some b ∧ Q b (s.setCode ns (c + 1)) := by
  cases hb : host.table[c]? with
  | none =>
    subst hc
    simp only [nextByte, readByte, wp_bind, wp_code, hb, wp_throw, reduceCtorEq, false_and,
      exists_false]
  | some b =>
    rw [wp_nextByte_of hb hc]
    constructor
    · intro h
      exact ⟨b, rfl, h⟩
    · rintro ⟨_, h, hq⟩
      cases h
      exact hq

theorem takes_nextByte (hb : host.table[c]? = some b) (hc : s.code ns = c) :
    Takes E (nextByte host ns) b ns (c + 1) s :=
  (wp_nextByte_of hb hc).mpr ⟨rfl, .setCode⟩

theorem readBytes_eq (h : host.ReadsAt p bytes) (hn : n = bytes.length) :
    readBytes host p n = pure bytes := by
  subst hn
  rw [readBytes, if_pos h.le, h.take]

theorem wp_readBytes_of_readsAt {Q : List UInt8 → AmlState → Prop} (h : host.ReadsAt p bytes)
    (hn : n = bytes.length) (hQ : Q bytes s) : Wp (readBytes host p n) Q E s := by
  rw [readBytes_eq h hn]
  exact hQ

theorem takes_nextNat (h : host.ReadsAt c bytes) (hn : n = bytes.length) (hc : s.code ns = c) :
    Takes E (nextNat host ns n) (leNat bytes) ns (c + n) s := by
  subst hc
  simp only [Takes, nextNat, wp_bind, wp_code]
  refine wp_readBytes_of_readsAt h hn ?_
  exact ⟨rfl, .setCode⟩

/-! ## Package lengths -/

theorem leadByte_count (hk : k < 4) (hr : r < 64) : (64 * k + r) >>> 6 &&& 0b11 = k := by
  have h : (64 * k + r) >>> 6 = k := by rw [Nat.shiftRight_eq_div_pow]; omega
  rw [h]
  exact (Nat.and_two_pow_sub_one_eq_mod k 2).trans (Nat.mod_eq_of_lt hk)

theorem leadByte_low (hr : r < 64) : (64 * k + r) &&& 0x3F = r := by
  refine (Nat.and_two_pow_sub_one_eq_mod (64 * k + r) 6).trans ?_
  omega

theorem pkgLength_two (h : n < 2 ^ 12) : n % 16 ||| (n / 16 % 256) <<< 4 = n := by
  rw [or_shiftLeft (by omega)]
  omega

theorem pkgLength_three (h : n < 2 ^ 20) :
    n % 16 ||| (n / 16 % 256) <<< 4 ||| (n / 16 / 256 % 256) <<< 12 = n := by
  rw [or_shiftLeft (by omega : n % 16 < 2 ^ 4), or_shiftLeft (by omega)]
  omega

theorem pkgLength_four (h : n < 2 ^ 28) :
    n % 16 ||| (n / 16 % 256) <<< 4 ||| (n / 16 / 256 % 256) <<< 12 |||
      (n / 16 / 256 / 256 % 256) <<< 20 = n := by
  rw [or_shiftLeft (by omega : n % 16 < 2 ^ 4),
    or_shiftLeft (by omega : n % 16 + n / 16 % 256 * 2 ^ 4 < 2 ^ 12), or_shiftLeft (by omega)]
  omega

/-- `parse_length` reads the length back, in whatever number of bytes it is given. -/
theorem wp_parseLength {Q : Nat → AmlState → Prop} (hfit : PkgFits w n)
    (hat : host.ReadsAt c (encodePkgLength w n)) (hc : s.code ns = c) :
    Wp (parseLength host ns) Q E s ↔ Q n (s.setCode ns (c + w)) := by
  have hbyte : ∀ v, (UInt8.ofNat v).toNat = v % 256 := fun v => UInt8.toNat_ofNat'
  have hnext : ∀ {p : Nat}, (s.setCode ns p).code ns = p := Advanced.setCode.code
  obtain ⟨rfl, hn⟩ | ⟨hw, hw', hn⟩ := hfit
  · obtain ⟨hlead, -⟩ := readsAt_cons.mp hat
    have hval : (UInt8.ofNat n).toNat = 64 * 0 + n := by rw [hbyte]; omega
    rw [parseLength, wp_bind, wp_nextByte_of hlead hc]
    simp only [hval, leadByte_count (by omega : 0 < 4) hn, leadByte_low hn, wp_pure]
  · have hmod : n % 16 < 64 := by omega
    obtain rfl | rfl | rfl : w = 2 ∨ w = 3 ∨ w = 4 := by omega
    all_goals
      simp only [encodePkgLength, leBytes, readsAt_cons] at hat
      rw [parseLength, wp_bind, wp_nextByte_of hat.1 hc]
    · have hval : (UInt8.ofNat (64 * (2 - 1) + n % 16)).toNat = 64 * 1 + n % 16 := by
        rw [hbyte]; omega
      simp only [hval, leadByte_count (by omega : 1 < 4) hmod, leadByte_low hmod]
      rw [wp_bind, wp_nextByte_of hat.2.1 hnext, setCode_setCode, hbyte, pkgLength_two hn, wp_pure]
    · have hval : (UInt8.ofNat (64 * (3 - 1) + n % 16)).toNat = 64 * 2 + n % 16 := by
        rw [hbyte]; omega
      simp only [hval, leadByte_count (by omega : 2 < 4) hmod, leadByte_low hmod]
      rw [wp_bind, wp_nextByte_of hat.2.1 hnext, setCode_setCode, wp_bind,
        wp_nextByte_of hat.2.2.1 hnext, setCode_setCode, hbyte, hbyte, pkgLength_three hn, wp_pure]
    · have hval : (UInt8.ofNat (64 * (4 - 1) + n % 16)).toNat = 64 * 3 + n % 16 := by
        rw [hbyte]; omega
      simp only [hval, leadByte_count (by omega : 3 < 4) hmod, leadByte_low hmod]
      rw [wp_bind, wp_nextByte_of hat.2.1 hnext, setCode_setCode, wp_bind,
        wp_nextByte_of hat.2.2.1 hnext, setCode_setCode, wp_bind, wp_nextByte_of hat.2.2.2.1 hnext,
        setCode_setCode, hbyte, hbyte, hbyte, pkgLength_four hn, wp_pure]

theorem takes_parseLength (hfit : PkgFits w n) (hat : host.ReadsAt c (encodePkgLength w n))
    (hc : s.code ns = c) : Takes E (parseLength host ns) n ns (c + w) s :=
  (wp_parseLength hfit hat hc).mpr ⟨rfl, .setCode⟩

/-- On every encoding of a length, `parse_length` returns the length and moves the cursor behind the
encoding, whatever follows it. -/
theorem parseLength_inverts (host : AmlHost) (s : AmlState) (ns : Nat)
    (before behind : List UInt8) {n : Nat} {bytes : List UInt8} (hbytes : PkgLength n bytes)
    (htable : host.table = before ++ (bytes ++ behind)) (hcode : s.code ns = before.length) :
    ∃ s', parseLength host ns s = .ok n s' ∧ s'.code ns = s.code ns + bytes.length ∧
      s' = s.setCode ns (s'.code ns) := by
  obtain ⟨w, hfit, rfl⟩ := hbytes.fits
  have hat : host.ReadsAt before.length (encodePkgLength w n) := by
    rw [AmlHost.ReadsAt, htable, List.drop_left]
    exact List.prefix_append _ _
  obtain ⟨v, s', hrun, rfl, rfl⟩ := wp_returns.mp ((wp_parseLength hfit hat hcode
    (Q := fun v s' => v = n ∧ s' = s.setCode ns (before.length + w))).mpr ⟨rfl, rfl⟩)
  have hcursor : (s.setCode ns (before.length + w)).code ns = before.length + w :=
    Advanced.setCode.code
  refine ⟨_, hrun, ?_, ?_⟩
  · rw [hcursor, hcode, encodePkgLength_length hfit]
  · rw [hcursor]

/-- A host whose table is a byte, the length `0x123` in three bytes, and a byte. -/
def lengthHost : AmlHost where
  table := [0x11, 0x83, 0x12, 0x00, 0x0A]
  uninit _ _ := 0
  readMem _ _ _ := none
  readIo _ _ _ := 0

theorem parseLength_inverts_three :
    ∃ s', parseLength lengthHost 0 (initAmlState.setCode 0 1) = .ok 0x123 s' ∧ s'.code 0 = 4 := by
  have hbytes : PkgLength 0x123 [0x83, 0x12, 0x00] :=
    .long (k := 2) (by decide) (by decide) (by decide)
  obtain ⟨s', hrun, hcode, -⟩ := parseLength_inverts lengthHost (initAmlState.setCode 0 1) 0
    [0x11] [0x0A] hbytes rfl rfl
  exact ⟨s', hrun, hcode⟩

theorem readsAt_pkg (hok : PkgOk w content) (hat : host.ReadsAt p (encodePkg w content)) :
    host.ReadsAt p (encodePkgLength w (w + content.length)) ∧ host.ReadsAt (p + w) content := by
  have h := readsAt_append.mp hat
  rw [encodePkgLength_length hok] at h
  exact h

/-- What is left of the length of a method behind its name and flags. -/
theorem methodLen_eq (hok : PkgOk w (name ++ flags :: body)) :
    (w + (name ++ flags :: body).length + 2 ^ 64 - (c + w + name.length + 1 - c)) % 2 ^ 64 =
      body.length := by
  have hlt := hok.lt
  simp only [List.length_append, List.length_cons] at hlt ⊢
  omega

/-! ## Names -/

/-- The loop goes over the prefix characters and keeps the first. -/
theorem prefixLoop_reads (hfuel : Fueled E lead.length fuel)
    (hlead : ∀ b ∈ lead, b = rootChar ∨ b = parentChar)
    (hat : host.ReadsAt copy lead) (hb : host.table[copy + lead.length]? = some b)
    (hne : b ≠ rootChar ∧ b ≠ parentChar) :
    Wp (prefixLoop host fuel copy charPrefix) (fun r s' => s' = s ∧
      r = (copy + lead.length, if charPrefix = 0 then lead.headD 0 else charPrefix)) E s := by
  induction fuel generalizing copy lead charPrefix with
  | zero => exact hfuel.zero _ rfl
  | succ fuel ih =>
    simp only [prefixLoop, wp_bind]
    cases lead with
    | nil =>
      simp only [List.length_nil, Nat.add_zero] at hb ⊢
      simp only [readByte, hb, wp_pure, hne.1, hne.2, or_self, if_false, true_and]
      split <;> simp_all
    | cons l lead =>
      obtain ⟨hl, hat'⟩ := readsAt_cons.mp hat
      simp only [readByte, hl, wp_pure, if_pos (hlead l (.head _))]
      rw [List.length_cons, ← Nat.add_assoc, Nat.add_right_comm] at hb
      refine (ih hfuel.pred (fun b hb => hlead b (.tail _ hb)) hat' hb).mono ?_ fun _ _ => id
      rintro r s' ⟨rfl, rfl⟩
      have hl0 : l ≠ 0 := by
        obtain rfl | rfl := hlead l (.head _) <;> decide
      refine ⟨rfl, ?_⟩
      simp only [List.length_cons, List.headD_cons, Prod.mk.injEq]
      refine ⟨by omega, ?_⟩
      split <;> simp_all

theorem nameLead_mem {lead : NameLead} (h : b ∈ lead.encode) : b = rootChar ∨ b = parentChar := by
  cases lead with
  | root => exact .inl (List.mem_singleton.mp h)
  | parents m => exact .inr (List.eq_of_mem_replicate h)

/-- The first byte of a path is not a prefix character, and it gives the number of segments. -/
theorem segCountAt_reads {path : NamePath}
    (hat : host.ReadsAt p (path.segPrefix ++ segBytes path.segs)) :
    ∃ b, host.table[p]? = some b ∧ (b ≠ rootChar ∧ b ≠ parentChar) ∧
      segCountAt host p = pure (path.segs.length, p + path.segPrefix.length) := by
  cases path with
  | null =>
    obtain ⟨hb, -⟩ := readsAt_cons.mp hat
    refine ⟨0, hb, by decide, ?_⟩
    simp only [segCountAt, readByte, hb, pure_bind]
    rfl
  | seg seg =>
    obtain ⟨hb, -⟩ := readsAt_cons.mp hat
    obtain ⟨h₁, h₂, h₃, h₄, h₅⟩ := validChar_not_lead seg.validChar_c0
    refine ⟨seg.key.c0, hb, ⟨h₁, h₂⟩, ?_⟩
    simp only [segCountAt, readByte, hb, pure_bind, h₃, h₄, h₅, if_false]
    rfl
  | dual s₁ s₂ =>
    obtain ⟨hb, -⟩ := readsAt_cons.mp hat
    refine ⟨0x2E, hb, by decide, ?_⟩
    simp only [segCountAt, readByte, hb, pure_bind]
    rfl
  | multi segs hlen =>
    simp only [NamePath.segPrefix, List.cons_append, readsAt_cons] at hat
    refine ⟨0x2F, hat.1, by decide, ?_⟩
    have hval : (UInt8.ofNat segs.length).toNat = segs.length :=
      UInt8.toNat_ofNat'.trans (Nat.mod_eq_of_lt hlen)
    simp only [segCountAt, readByte, hat.1, hat.2.1, pure_bind, hval]
    rfl

/-- `parse_namestring` takes the whole name, and of its prefix characters it keeps the first. -/
theorem parseNamestring_eq {n : NameString} (hfuel : Fueled E n.lead.encode.length fuel)
    (hat : host.ReadsAt c n.encode) (hc : s.code ns = c) :
    Wp (parseNamestring host fuel ns) (fun v s' => v.inner = n.inner ∧
      s' = (s.setCode ns (c + n.encode.length)).tick) E s := by
  obtain ⟨lead, path⟩ := n
  obtain ⟨hlead, hpath⟩ := readsAt_append.mp hat
  obtain ⟨b, hb, hne, hseg⟩ := segCountAt_reads hpath
  obtain ⟨-, hsegs⟩ := readsAt_append.mp hpath
  simp only [parseNamestring, wp_bind, wp_code, hc]
  refine (prefixLoop_reads hfuel (fun _ => nameLead_mem) hlead hb hne).mono ?_ fun _ _ => id
  rintro _ s₁ ⟨rfl, rfl⟩
  dsimp only
  rw [hseg, pure_bind]
  dsimp only
  rw [wp_bind]
  refine wp_readBytes_of_readsAt hsegs segBytes_length.symm ?_
  simp only [wp_bind, wp_uninit, wp_setCode, wp_pure]
  have hlen : c + lead.encode.length + path.segPrefix.length + path.segs.length * keyLen =
      c + (NameString.mk lead path).encode.length := by
    simp only [NameString.encode, List.length_append, segBytes_length]
    omega
  refine ⟨?_, by rw [← hlen]; rfl⟩
  cases lead with
  | root => rfl
  | parents m => cases m <;> rfl

theorem parseNamestring_reads {n : NameString} (hfuel : Fueled E n.lead.encode.length fuel)
    (hat : host.ReadsAt c n.encode) (hc : s.code ns = c) :
    Wp (parseNamestring host fuel ns) (fun v s' => v.inner = n.inner ∧
      Advanced s ns (c + n.encode.length) s') E s := by
  refine (parseNamestring_eq hfuel hat hc).mono ?_ fun _ _ => id
  rintro v _ ⟨hv, rfl⟩
  exact ⟨hv, Advanced.setCode.tick⟩

theorem validName_inner {n : NameString} (h : v.inner = n.inner) : validName v = true := by
  have hvalid : ∀ segs : List NameSeg, validName ⟨segBytes segs, v.behind⟩ = true := by
    intro segs
    simp only [validName]
    split
    · exact List.all_eq_true.mpr fun b hb =>
        List.all_eq_true.mp segBytes_valid b (List.mem_of_mem_drop hb)
    · exact segBytes_valid
  obtain ⟨lead, path⟩ := n
  obtain ⟨inner, behind⟩ := v
  dsimp only at h
  subst h
  cases lead with
  | root => exact segBytes_valid
  | parents m =>
    cases m with
    | zero => exact hvalid path.segs
    | succ m => exact segBytes_valid

/-! ## Names tried on data objects -/

/-- The first byte of a data object. -/
def dataLead (b : UInt8) : Bool :=
  b ∈ [0x00, 0x01, 0xFF, 0x0A, 0x0B, 0x0C, 0x0E, 0x0D, 0x11, 0x12, 0x13]

theorem dataLead_not_name (h : dataLead b = true) : (b ≠ rootChar ∧ b ≠ parentChar) ∧ b ≠ 0x2E ∧
    b ≠ 0x2F ∧ validChar b = false := by
  have h' := of_decide_eq_true h
  simp only [List.mem_cons, List.not_mem_nil, or_false] at h'
  rcases h' with rfl | rfl | rfl | rfl | rfl | rfl | rfl | rfl | rfl | rfl | rfl <;> decide

/-- `parse_namestring` is tried on a data object: it reads at most four bytes, and the name it gives
is empty or not valid. -/
theorem parseNamestring_data (hfuel : Fueled E 0 fuel) (hb : host.table[c]? = some b)
    (hlead : dataLead b = true) (hread : c + keyLen ≤ host.table.length) (hc : s.code ns = c) :
    Wp (parseNamestring host fuel ns) (fun v s' => (!validName v || v.count == 0) = true ∧
      ∃ p, Advanced s ns p s') E s := by
  obtain ⟨hne, hdual, hmulti, hinvalid⟩ := dataLead_not_name hlead
  have hnone : ∀ b ∈ ([] : List UInt8), b = rootChar ∨ b = parentChar := by simp
  simp only [parseNamestring, wp_bind, wp_code, hc]
  refine (prefixLoop_reads hfuel hnone List.nil_prefix hb hne).mono ?_ fun _ _ => id
  rintro _ _ ⟨rfl, rfl⟩
  simp only [List.length_nil, Nat.add_zero, segCountAt, readByte, hb, wp_bind, wp_pure,
    hdual, hmulti, if_false]
  split
  · simp only [wp_pure, readBytes, Nat.zero_mul, true_or, if_true, List.take_zero]
    exact ⟨rfl, _, Advanced.setCode.tick⟩
  · simp only [wp_pure, readBytes, Nat.one_mul, if_pos (Or.inr hread)]
    refine ⟨?_, _, Advanced.setCode.tick⟩
    obtain ⟨rest, hrest⟩ : ∃ rest, (host.table.drop c).take keyLen = b :: rest := by
      rw [← List.head?_drop] at hb
      cases hd : host.table.drop c with
      | nil => rw [hd] at hb; cases hb
      | cons d ds =>
        rw [hd] at hb
        cases hb
        exact ⟨ds.take 3, rfl⟩
    rw [hrest]
    simp [validName, hne.1, hne.2, hinvalid]

/-- In a package the name is turned down, and the cursor put back to the data object. -/
theorem packageElement_data {parse : Nat → Aml AmlData} {Q : AmlData → AmlState → Prop}
    (hfuel : Fueled E 0 fuel) (hat : host.ReadsAt c (b :: bs)) (hlead : dataLead b = true)
    (hread : c + (b :: bs).length + 3 ≤ host.table.length) (hc : s.code ns = c)
    (hparse : ∀ s', Advanced s ns c s' → Wp (parse ns) Q E s') :
    Wp (packageElement host parse fuel ns) Q E s := by
  have hread' : c + keyLen ≤ host.table.length := by
    rw [List.length_cons] at hread
    simp only [keyLen]
    omega
  simp only [packageElement, wp_bind, wp_code]
  refine (parseNamestring_data hfuel (readsAt_cons.mp hat).1 hlead hread' hc).mono ?_ fun _ _ => id
  rintro v s' ⟨hv, p, h'⟩
  rw [if_pos hv, wp_bind, wp_setCode, hc]
  exact hparse _ (h'.trans .setCode)

/-! ## Constants and strings -/

theorem takes_literal {n v : Nat} (hat : host.ReadsAt (c + 1) (leBytes n v)) (hlt : v < 256 ^ n)
    (hc : s.code ns = c + 1) : Takes E (nextNat host ns n) v ns (c + (n + 1)) s := by
  have h : Takes E (nextNat host ns n) _ ns _ s := takes_nextNat hat leBytes_length.symm hc
  rwa [leNat_leBytes_of_lt hlt, Nat.add_assoc, Nat.add_comm 1] at h

theorem takes_termArgToInt_const {v : IntConst} (hv : v.Short) (hfuel : Fueled E n fuel)
    (hat : host.ReadsAt c v.encode) (hc : s.code ns = c) :
    Takes E (termArgToInt host fuel ns) v.value ns (c + v.encode.length) s := by
  cases fuel with
  | zero => exact hfuel.mono (Nat.zero_le n) |>.zero _ rfl
  | succ fuel =>
    rw [termArgToInt, Takes, wp_bind, wp_code]
    cases v with
    | zero => exact (takes_nextByte (readsAt_cons.mp hat).1 hc).seq fun s' h' => takes_pure h'.code
    | one => exact (takes_nextByte (readsAt_cons.mp hat).1 hc).seq fun s' h' => takes_pure h'.code
    | ones => exact (takes_nextByte (readsAt_cons.mp hat).1 hc).seq fun s' h' => takes_pure h'.code
    | byte v =>
      obtain ⟨hb, hat'⟩ := readsAt_cons.mp hat
      exact (takes_nextByte hb hc).seq fun s' h' => takes_literal hat' v.toNat_lt h'.code
    | word v =>
      obtain ⟨hb, hat'⟩ := readsAt_cons.mp hat
      exact (takes_nextByte hb hc).seq fun s' h' => takes_literal hat' v.toNat_lt h'.code
    | dword v =>
      obtain ⟨hb, hat'⟩ := readsAt_cons.mp hat
      exact (takes_nextByte hb hc).seq fun s' h' => takes_literal hat' v.toNat_lt h'.code
    | qword v => exact hv.elim

theorem stringLoop_reads (hfuel : Fueled E chars.length fuel)
    (hat : host.ReadsAt (p + i) (chars ++ [0x00])) (hchars : 0x00 ∉ chars) :
    Wp (stringLoop host p fuel i) (fun n s' => s' = s ∧ n = i + chars.length) E s := by
  induction fuel generalizing i chars with
  | zero => exact (hfuel.mono (Nat.zero_le _)).zero _ rfl
  | succ fuel ih =>
    simp only [stringLoop, wp_bind]
    cases chars with
    | nil =>
      obtain ⟨hb, -⟩ := readsAt_cons.mp hat
      simp only [readByte, hb, wp_pure]
      exact ⟨rfl, rfl⟩
    | cons ch chars =>
      obtain ⟨hb, hat'⟩ := readsAt_cons.mp hat
      have hne : ch ≠ 0x00 := fun e => hchars (e ▸ .head _)
      simp only [readByte, hb, wp_pure, if_pos hne]
      refine (ih hfuel.pred hat' fun h => hchars (.tail _ h)).mono ?_ fun _ _ => id
      rintro n s' ⟨rfl, rfl⟩
      exact ⟨rfl, by simp only [List.length_cons]; omega⟩

theorem parseDataObject_const {v : IntConst} (hfuel : Fueled E 0 fuel)
    (hat : host.ReadsAt c v.encode) (hc : s.code ns = c) :
    Takes E (parseDataObject host fuel ns) v.data ns (c + v.encode.length) s := by
  cases fuel with
  | zero => exact hfuel.zero _ rfl
  | succ fuel =>
    rw [parseDataObject]
    cases v with
    | zero => exact (takes_nextByte (readsAt_cons.mp hat).1 hc).seq fun s' h' => takes_pure h'.code
    | one => exact (takes_nextByte (readsAt_cons.mp hat).1 hc).seq fun s' h' => takes_pure h'.code
    | ones => exact (takes_nextByte (readsAt_cons.mp hat).1 hc).seq fun s' h' => takes_pure h'.code
    | byte v =>
      obtain ⟨hb, hat'⟩ := readsAt_cons.mp hat
      exact (takes_nextByte hb hc).seq fun s' h' => (takes_literal hat' v.toNat_lt h'.code).map
    | word v =>
      obtain ⟨hb, hat'⟩ := readsAt_cons.mp hat
      exact (takes_nextByte hb hc).seq fun s' h' => (takes_literal hat' v.toNat_lt h'.code).map
    | dword v =>
      obtain ⟨hb, hat'⟩ := readsAt_cons.mp hat
      exact (takes_nextByte hb hc).seq fun s' h' => (takes_literal hat' v.toNat_lt h'.code).map
    | qword v =>
      obtain ⟨hb, hat'⟩ := readsAt_cons.mp hat
      exact (takes_nextByte hb hc).seq fun s' h' => (takes_literal hat' v.toNat_lt h'.code).map

/-- A string is copied with the byte that ends it. -/
theorem parseDataObject_string (hfuel : Fueled E (0x0D :: (chars ++ [0x00])).length fuel)
    (hat : host.ReadsAt c (0x0D :: (chars ++ [0x00]))) (hchars : 0x00 ∉ chars)
    (hc : s.code ns = c) :
    Takes E (parseDataObject host fuel ns) (.string (chars ++ [0x00])) ns
      (c + (0x0D :: (chars ++ [0x00])).length) s := by
  cases fuel with
  | zero => exact (hfuel.mono (Nat.zero_le _)).zero _ rfl
  | succ fuel =>
    obtain ⟨hb, hat'⟩ := readsAt_cons.mp hat
    rw [parseDataObject]
    refine (takes_nextByte hb hc).seq fun s₁ h₁ => ?_
    change Wp (do
      let p ← code ns
      let i ← stringLoop host p fuel 0
      let string ← readBytes host p (i + 1)
      setCode ns (p + (i + 1))
      pure (AmlData.string string)) _ _ _
    simp only [wp_bind, wp_code, h₁.code]
    have hfuel' : Fueled E chars.length fuel := hfuel.pred.mono (by simp)
    refine (stringLoop_reads (i := 0) hfuel' hat' hchars).mono ?_ fun _ _ => id
    rintro _ _ ⟨rfl, rfl⟩
    rw [wp_bind]
    refine wp_readBytes_of_readsAt hat' (by simp) ?_
    have hlen : c + 1 + (0 + chars.length + 1) = c + (0x0D :: (chars ++ [0x00])).length := by
      simp only [List.length_cons, List.length_append, List.length_nil]
      omega
    simp only [wp_bind, wp_setCode, wp_pure, hlen, true_and]
    exact .setCode

/-! ## Opcodes -/

/-- `parse_next` on an opcode of one byte. -/
theorem wp_parseNext_op {parse : Nat → Nat → Nat → Aml Unit} (hb : host.table[c]? = some b)
    (hne : b ≠ extOpPrefix) (hc : s.code ns = c) : Wp (parseNext host parse fuel ns) Q E s ↔
      Wp (parseTerm host parse fuel ns (.ofByte b)) Q E
        ((s.emit (.enter c)).setCode ns (c + 1)) := by
  have hentered : (s.emit (.enter c)).code ns = c := hc
  simp only [parseNext, wp_bind, wp_code, wp_emit, hc, nextOp]
  rw [wp_nextByte_of hb hentered, if_neg hne, wp_pure]

/-- `parse_next` on an opcode with a prefix. -/
theorem wp_parseNext_ext {parse : Nat → Nat → Nat → Aml Unit}
    (hat : host.ReadsAt c [extOpPrefix, b]) (hc : s.code ns = c) :
    Wp (parseNext host parse fuel ns) Q E s ↔
      Wp (parseTerm host parse fuel ns (.ofExtByte b)) Q E
        ((s.emit (.enter c)).setCode ns (c + 2)) := by
  simp only [readsAt_cons] at hat
  have hentered : (s.emit (.enter c)).code ns = c := hc
  simp only [parseNext, wp_bind, wp_code, wp_emit, hc, nextOp]
  rw [wp_nextByte_of hat.1 hentered, if_pos rfl, wp_bind,
    wp_nextByte_of hat.2.1 Advanced.setCode.code, wp_pure, setCode_setCode]

/-! ## Functions that only read -/

/-- Nothing but the cursor of `ns` and the time have changed. -/
def Advances (ns : Nat) (s s' : AmlState) : Prop := ∃ p, Advanced s ns p s'

instance : IsPreorder AmlState (Advances ns) where
  refl s := ⟨s.code ns, .refl rfl⟩
  trans _ _ _ h h' := by
    obtain ⟨p, h⟩ := h
    obtain ⟨p', h'⟩ := h'
    exact ⟨p', h.trans h'⟩

theorem advances_code : Respects (Advances ns) (code n) := fun s => refl_of (Advances ns) s

theorem advances_setCode : Respects (Advances ns) (setCode ns c) := fun _ => ⟨c, .setCode⟩

theorem advances_tick : Respects (Advances ns) tick :=
  fun s => ⟨s.code ns, (Advanced.refl rfl).tick⟩

theorem advances_ask {f : Tree → Except AmlStop α} : Respects (Advances ns) (ask f) :=
  fun s => wp_ask (fun _ _ => refl_of (Advances ns) s) fun _ _ => trivial

theorem advances_orExit {o : Option α} : Respects (Advances ns) (orExit o) :=
  fun s => wp_orExit (fun _ _ => refl_of (Advances ns) s) trivial

theorem advances_assert : Respects (Advances ns) (assert assertion b) :=
  fun s => wp_assert (fun _ => refl_of (Advances ns) s) trivial

theorem advances_unimplemented : Respects (Advances ns) (unimplemented b) := advances_assert

theorem advances_readByte : Respects (Advances ns) (readByte host p) :=
  fun s => wp_readByte (fun _ _ => refl_of (Advances ns) s) trivial

theorem advances_readBytes : Respects (Advances ns) (readBytes host p n) :=
  fun s => wp_readBytes (fun _ => refl_of (Advances ns) s) trivial

theorem advances_uninit : Respects (Advances ns) (uninit host n) :=
  advances_tick.bind fun _ => .pure

theorem advances_nextByte : Respects (Advances ns) (nextByte host ns) :=
  advances_code.bind fun _ => advances_readByte.bind fun _ => advances_setCode.bind fun _ => .pure

theorem advances_nextNat : Respects (Advances ns) (nextNat host ns n) :=
  advances_code.bind fun _ => advances_readBytes.bind fun _ => advances_setCode.bind fun _ => .pure

theorem advances_parseLength : Respects (Advances ns) (parseLength host ns) := by
  refine advances_nextByte.bind fun leadByte => ?_
  dsimp only
  split
  · exact .pure
  · exact advances_nextByte.bind fun _ => .pure
  · exact advances_nextByte.bind fun _ => advances_nextByte.bind fun _ => .pure
  · exact advances_nextByte.bind fun _ => advances_nextByte.bind fun _ =>
      advances_nextByte.bind fun _ => .pure

theorem advances_prefixLoop : Respects (Advances ns) (prefixLoop host fuel copy charPrefix) := by
  induction fuel generalizing copy charPrefix with
  | zero => exact .throw
  | succ fuel ih =>
    refine advances_readByte.bind fun c => ?_
    split
    · exact ih
    · exact .pure

theorem advances_segCountAt : Respects (Advances ns) (segCountAt host copy) := by
  refine advances_readByte.bind fun segPrefix => ?_
  split
  · exact .pure
  split
  · exact advances_readByte.bind fun _ => .pure
  split
  · exact .pure
  · exact .pure

theorem advances_parseNamestring : Respects (Advances ns) (parseNamestring host fuel ns) :=
  advances_code.bind fun _ => advances_prefixLoop.bind fun _ => advances_segCountAt.bind fun _ =>
    advances_readBytes.bind fun _ => advances_uninit.bind fun _ =>
      advances_setCode.bind fun _ => .pure

theorem advances_readField : Respects (Advances ns) (readField host field) := by
  refine advances_orExit.bind fun readLen => ?_
  split
  · refine advances_tick.bind fun t => ?_
    split
    · exact .pure
    · exact .throw
  · unfold readIo
    split
    · exact advances_tick.bind fun _ => .pure
    · exact .throw
  · exact .throw

theorem advances_objectToInt : Respects (Advances ns) (objectToInt host obj) := by
  cases obj with
  | name variable_ =>
    simp only [objectToInt]
    split
    · exact .pure
    · exact .pure
    · exact .pure
    · exact .throw
  | fieldOffset field => exact advances_readField
  | _ => exact .pure

theorem advances_nameToInt : Respects (Advances ns) (nameToInt host ns) :=
  advances_code.bind fun _ => advances_readBytes.bind fun _ => advances_ask.bind fun _ =>
    advances_orExit.bind fun _ => advances_setCode.bind fun _ => advances_objectToInt

theorem advances_termArgToInt : Respects (Advances ns) (termArgToInt host fuel ns) := by
  induction fuel with
  | zero => exact .throw
  | succ fuel ih =>
    refine advances_code.bind fun c => advances_nextByte.bind fun op => ?_
    split
    · exact .pure
    · exact .pure
    · exact .pure
    · exact advances_nextNat
    · exact advances_nextNat
    · exact advances_nextNat
    · exact ih.bind fun _ => .pure
    · exact ih.bind fun _ => ih.bind fun _ => .pure
    · exact ih.bind fun _ => ih.bind fun _ => .pure
    · exact ih.bind fun _ => ih.bind fun _ => .pure
    · exact ih.bind fun _ => ih.bind fun _ => .pure
    · exact advances_setCode.bind fun _ => advances_nameToInt

theorem advances_termArgToBuffer : Respects (Advances ns) (termArgToBuffer host ns) := by
  refine advances_code.bind fun c => advances_readBytes.bind fun name => ?_
  refine advances_ask.bind fun r => ?_
  obtain ⟨obj, name'⟩ := r
  dsimp only
  split
  · exact .throw
  · exact advances_setCode.bind fun _ => .pure
  · exact .throw

section
variable {parse : Nat → Aml AmlData} (hparse : Respects (Advances ns) (parse ns))
include hparse

theorem advances_packageElement : Respects (Advances ns) (packageElement host parse fuel ns) := by
  refine advances_code.bind fun codeCopy => advances_parseNamestring.bind fun name => ?_
  split
  · exact advances_setCode.bind fun _ => hparse
  · exact advances_tick.bind fun _ => advances_ask.bind fun _ => .pure

theorem advances_populatePackage :
    Respects (Advances ns) (populatePackage host parse fuel ns n) := by
  induction n with
  | zero => exact .pure
  | succ n ih => exact (advances_packageElement hparse).bind fun _ => ih.bind fun _ => .pure

theorem advances_packageData : Respects (Advances ns) (packageData host parse fuel ns n) :=
  (advances_populatePackage hparse).bind fun _ => .pure

end

theorem advances_stringLoop : Respects (Advances ns) (stringLoop host p fuel i) := by
  induction fuel generalizing i with
  | zero => exact .throw
  | succ fuel ih =>
    refine advances_readByte.bind fun b => ?_
    split
    · exact ih
    · exact .pure

theorem advances_parseDataObject : Respects (Advances ns) (parseDataObject host fuel ns) := by
  induction fuel with
  | zero => exact .throw
  | succ fuel ih =>
    refine advances_nextByte.bind fun op => ?_
    split
    · exact .pure
    · exact .pure
    · exact .pure
    · exact advances_nextNat.map
    · exact advances_nextNat.map
    · exact advances_nextNat.map
    · exact advances_nextNat.map
    · exact advances_code.bind fun _ => advances_stringLoop.bind fun _ =>
        advances_readBytes.bind fun _ => advances_setCode.bind fun _ => .pure
    · exact advances_parseLength.bind fun _ => advances_termArgToInt.bind fun _ =>
        advances_packageData ih
    · exact advances_parseLength.bind fun _ => advances_nextByte.bind fun _ =>
        advances_packageData ih
    · exact advances_parseLength.bind fun _ => advances_termArgToInt.bind fun _ =>
        advances_code.bind fun _ => advances_readBytes.bind fun _ =>
          advances_setCode.bind fun _ => .pure
    · exact advances_unimplemented.bind fun _ => .throw

theorem advances_methodScope : Respects (Advances ns) (methodScope n name) := by
  unfold methodScope
  split
  · split
    · exact .pure
    split
    · exact advances_ask.bind fun _ => advances_orExit
    · exact .pure
  split
  · exact .throw
  · exact advances_ask.bind fun _ => advances_orExit

theorem advances_skipPackage : Respects (Advances ns) (skipPackage host ns) :=
  advances_code.bind fun _ => advances_parseLength.bind fun _ => advances_setCode

theorem advances_locateScope : Respects (Advances ns) (locateScope n name) := by
  unfold locateScope
  split
  · exact .pure
  refine advances_ask.bind fun r => ?_
  obtain ⟨scope, name'⟩ := r
  cases scope with
  | some scope => exact .pure
  | none =>
    simp only [scopeNotFound]
    split
    · exact advances_ask.bind fun _ => .throw
    · exact .throw

end Aml

end Lethe
