import Mathlib.Data.List.Nodup
import Lethe.Libc.String

/-!
# Symbol lookup

`lethe-kernel/misc/trace.c`. Both lookups go over the symbol table of the kernel's file and pass
over the symbols that are not functions: `resolve_function_address` stops at the first with the
name, `resolve_function_name` keeps the one with the greatest address up to `rip`, beginning with
the null symbol.
-/

namespace Lethe

/-! ## The code -/

/-- The fields of an `Elf64_Shdr` that are read. -/
structure Elf64Shdr where
  shName : BitVec 32
  shType : BitVec 32
  shOffset : BitVec 64
  shSize : BitVec 64
  deriving DecidableEq

/-- The fields of an `Elf64_Sym` that are read. -/
structure Elf64Sym where
  stName : BitVec 32
  stInfo : BitVec 8
  stValue : BitVec 64
  deriving DecidableEq

/-- What is at `kernel_file_address`: the section headers, the strings behind `shstrtab`, and the
symbols and the strings of a section at an offset of the file. -/
structure KernelFile where
  sections : List Elf64Shdr
  shstrtab : BitVec 32 → CString
  symbolAt : BitVec 64 → Nat → Elf64Sym
  stringAt : BitVec 64 → BitVec 32 → CString

/-- The static variables; the tables are offsets of the file. -/
structure TraceState where
  kernelHeader : Bool := false
  symtab : Option (BitVec 64) := none
  symEntries : BitVec 32 := 0
  strtab : Option (BitVec 64) := none

/-- ".strtab" and "???". -/
def strtabName : CString := ⟨[0x2E, 0x73, 0x74, 0x72, 0x74, 0x61, 0x62], by simp, by decide⟩
def unknownName : CString := ⟨[0x3F, 0x3F, 0x3F], by simp, by decide⟩

namespace KernelFile
variable (file : KernelFile)

/-- The body of the loop over the section headers; a symbol has 24 bytes. -/
def scanSection (st : TraceState) (header : Elf64Shdr) : TraceState :=
  let st :=
    if header.shType = 2 then
      { st with
        symtab := some header.shOffset
        symEntries := (header.shSize / 24).setWidth 32 }
    else st
  if header.shType = 3 ∧ strncmp (file.shstrtab header.shName) strtabName 7 = 0 then
    { st with strtab := some header.shOffset }
  else st

/-- What every lookup begins with. -/
def load (st : TraceState) : TraceState :=
  if st.kernelHeader then st
  else file.sections.foldl file.scanSection { st with kernelHeader := true }

/-- The symbols below `sym_entries`, which is an `int`. -/
def entries (symtab : BitVec 64) (symEntries : BitVec 32) : List Elf64Sym :=
  (List.range symEntries.toInt.toNat).map (file.symbolAt symtab)

/-- The loop of `resolve_function_address`. -/
def addressLoop (strtab : BitVec 64) (name : CString) : List Elf64Sym → BitVec 64
  | [] => 0
  | symbol :: rest =>
    if symbol.stInfo &&& 0xF ≠ 2 then addressLoop strtab name rest
    else if strlen (file.stringAt strtab symbol.stName) ≠ strlen name then
      addressLoop strtab name rest
    else if strncmp (file.stringAt strtab symbol.stName) name
        (strlen (file.stringAt strtab symbol.stName)) = 0 then symbol.stValue
    else addressLoop strtab name rest

/-- `resolve_function_address`. -/
def resolveFunctionAddress (name : CString) (st : TraceState) : BitVec 64 × TraceState :=
  let st := file.load st
  match st.strtab, st.symtab with
  | some strtab, some symtab =>
    (file.addressLoop strtab name (file.entries symtab st.symEntries), st)
  | _, _ => (0, st)

/-- The loop of `resolve_function_name`. -/
def nameLoop (rip : BitVec 64) : List Elf64Sym → Elf64Sym → Elf64Sym
  | [], best => best
  | symbol :: rest, best =>
    if symbol.stInfo &&& 0xF ≠ 2 then nameLoop rip rest best
    else if best.stValue < symbol.stValue ∧ symbol.stValue ≤ rip then nameLoop rip rest symbol
    else nameLoop rip rest best

/-- `resolve_function_name`. -/
def resolveFunctionName (rip : BitVec 64) (st : TraceState) : CString × TraceState :=
  let st := file.load st
  match st.strtab, st.symtab with
  | some strtab, some symtab =>
    let best := nameLoop rip (file.entries symtab st.symEntries) (file.symbolAt symtab 0)
    (file.stringAt strtab best.stName, st)
  | _, _ => (unknownName, st)

end KernelFile

/-! ## The loops -/

/-- The function symbols of a table. -/
def functionsOf (symbols : List Elf64Sym) : List Elf64Sym :=
  symbols.filter fun symbol => symbol.stInfo &&& 0xF = 2

theorem functionsOf_cons_of_eq (symbols : List Elf64Sym) (h : symbol.stInfo &&& 0xF = 2) :
    functionsOf (symbol :: symbols) = symbol :: functionsOf symbols :=
  List.filter_cons_of_pos (decide_eq_true h)

theorem functionsOf_cons_of_ne (symbols : List Elf64Sym) (h : symbol.stInfo &&& 0xF ≠ 2) :
    functionsOf (symbol :: symbols) = functionsOf symbols :=
  List.filter_cons_of_neg (ne_of_eq_of_ne (decide_eq_false h) Bool.false_ne_true)

section
variable {file : KernelFile} {strtab : BitVec 64} {name : CString} {symbols : List Elf64Sym}

theorem addressLoop_cons (hfunction : symbol.stInfo &&& 0xF = 2) :
    file.addressLoop strtab name (symbol :: symbols) =
      if file.stringAt strtab symbol.stName = name then symbol.stValue
      else file.addressLoop strtab name symbols := by
  rw [KernelFile.addressLoop, if_neg (not_not.mpr hfunction)]
  have hsame := strlen_strncmp_eq_iff (file.stringAt strtab symbol.stName) name
  split
  · next hlen => rw [if_neg (mt hsame.mpr fun h => hlen h.1)]
  · next hlen =>
    rw [and_iff_right (not_not.mp hlen)] at hsame
    exact if_congr hsame rfl rfl

theorem addressLoop_of_notMem
    (h : name ∉ (functionsOf symbols).map fun symbol => file.stringAt strtab symbol.stName) :
    file.addressLoop strtab name symbols = 0 := by
  induction symbols with
  | nil => rfl
  | cons symbol symbols ih =>
    by_cases hfunction : symbol.stInfo &&& 0xF = 2
    · rw [functionsOf_cons_of_eq symbols hfunction, List.map_cons] at h
      have hne : file.stringAt strtab symbol.stName ≠ name := by
        rintro rfl
        exact h List.mem_cons_self
      rw [addressLoop_cons hfunction, if_neg hne]
      exact ih (List.not_mem_of_not_mem_cons h)
    · rw [functionsOf_cons_of_ne symbols hfunction] at h
      rw [KernelFile.addressLoop, if_pos hfunction]
      exact ih h

theorem addressLoop_of_mem {symbol : Elf64Sym}
    (hnames : ((functionsOf symbols).map fun symbol => file.stringAt strtab symbol.stName).Nodup)
    (h : symbol ∈ functionsOf symbols) :
    file.addressLoop strtab (file.stringAt strtab symbol.stName) symbols = symbol.stValue := by
  induction symbols with
  | nil => cases h
  | cons first symbols ih =>
    by_cases hfunction : first.stInfo &&& 0xF = 2
    · rw [functionsOf_cons_of_eq symbols hfunction] at h hnames
      rw [List.map_cons, List.nodup_cons] at hnames
      rw [addressLoop_cons hfunction]
      obtain rfl | h := List.mem_cons.mp h
      · rw [if_pos rfl]
      · have hne : file.stringAt strtab first.stName ≠ file.stringAt strtab symbol.stName := by
          intro heq
          rw [heq] at hnames
          exact hnames.1 (List.mem_map_of_mem h)
        rw [if_neg hne]
        exact ih hnames.2 h
    · rw [functionsOf_cons_of_ne symbols hfunction] at h hnames
      rw [KernelFile.addressLoop, if_pos hfunction]
      exact ih hnames h

/-- The loop of `resolve_function_name` keeps the greatest address up to `rip`. -/
theorem nameLoop_spec (rip : BitVec 64) (symbols : List Elf64Sym) (best : Elf64Sym) :
    (KernelFile.nameLoop rip symbols best = best ∨
      KernelFile.nameLoop rip symbols best ∈ functionsOf symbols ∧
        (KernelFile.nameLoop rip symbols best).stValue ≤ rip) ∧
    best.stValue ≤ (KernelFile.nameLoop rip symbols best).stValue ∧
    ∀ symbol ∈ functionsOf symbols, symbol.stValue ≤ rip →
      symbol.stValue ≤ (KernelFile.nameLoop rip symbols best).stValue := by
  induction symbols generalizing best with
  | nil => exact ⟨.inl rfl, BitVec.le_refl _, fun symbol h => nomatch h⟩
  | cons symbol symbols ih =>
    rw [KernelFile.nameLoop]
    split
    · next hfunction =>
      rw [functionsOf_cons_of_ne symbols hfunction]
      exact ih best
    · next hfunction =>
      rw [functionsOf_cons_of_eq symbols (not_not.mp hfunction)]
      split
      · next hbetter =>
        obtain ⟨hfrom, hle, hmax⟩ := ih symbol
        refine ⟨.inr ?_, BitVec.le_trans (BitVec.le_of_lt hbetter.1) hle, ?_⟩
        · obtain heq | ⟨hmem, hrip⟩ := hfrom
          · rw [heq]
            exact ⟨List.mem_cons_self, hbetter.2⟩
          · exact ⟨List.mem_cons_of_mem _ hmem, hrip⟩
        · exact List.forall_mem_cons.mpr ⟨fun _ => hle, hmax⟩
      · next hnot =>
        obtain ⟨hfrom, hle, hmax⟩ := ih best
        refine ⟨hfrom.imp_right fun h => ⟨List.mem_cons_of_mem _ h.1, h.2⟩, hle, ?_⟩
        refine List.forall_mem_cons.mpr ⟨fun hrip => ?_, hmax⟩
        have hworse : symbol.stValue ≤ best.stValue :=
          BitVec.not_lt.mp fun hlt => hnot ⟨hlt, hrip⟩
        exact BitVec.le_trans hworse hle

end

/-! ## The lookups -/

namespace KernelFile
variable (file : KernelFile)

/-- The static variables when the section headers have been gone over. -/
def loaded : TraceState := file.load {}

/-- The symbols that the lookups go over. -/
def symbols : List Elf64Sym :=
  match file.loaded.symtab with
  | some symtab => file.entries symtab file.loaded.symEntries
  | none => []

def functions : List Elf64Sym := functionsOf file.symbols

/-- The name of a symbol. -/
def nameOf (symbol : Elf64Sym) : CString :=
  match file.loaded.strtab with
  | some strtab => file.stringAt strtab symbol.stName
  | none => unknownName

/-- A file with a string table, and a symbol table that begins with the null symbol and whose
functions have different names and addresses. -/
structure WellFormed : Prop where
  hasStrings : file.loaded.strtab.isSome
  null : file.symbols[0]? = some ⟨0, 0, 0⟩
  names : (file.functions.map file.nameOf).Nodup
  addresses : (file.functions.map Elf64Sym.stValue).Nodup
  nonzero : ∀ symbol ∈ file.functions, symbol.stValue ≠ 0

/-- The static variables before or after the first lookup. -/
def Static (st : TraceState) : Prop := st = {} ∨ st = file.loaded

end KernelFile

section
variable {file : KernelFile} {st : TraceState} {name : CString}

theorem kernelHeader_scanSection (header : Elf64Shdr) :
    (file.scanSection st header).kernelHeader = st.kernelHeader := by
  rw [KernelFile.scanSection]
  split <;> split <;> rfl

theorem kernelHeader_foldl (headers : List Elf64Shdr) :
    (headers.foldl file.scanSection st).kernelHeader = st.kernelHeader := by
  induction headers generalizing st with
  | nil => rfl
  | cons header headers ih => exact ih.trans (kernelHeader_scanSection header)

namespace KernelFile

theorem Static.load (h : file.Static st) : file.load st = file.loaded := by
  obtain rfl | rfl := h
  · rfl
  · have hheader : file.loaded.kernelHeader = true := kernelHeader_foldl file.sections
    rw [KernelFile.load, if_pos hheader]

namespace WellFormed

theorem resolveFunctionAddress_eq (h : file.WellFormed) (hst : file.Static st) :
    ∃ strtab, file.nameOf = (fun symbol => file.stringAt strtab symbol.stName) ∧ ∀ name,
      file.resolveFunctionAddress name st =
        (file.addressLoop strtab name file.symbols, file.loaded) := by
  obtain ⟨strtab, hstrtab⟩ := Option.isSome_iff_exists.mp h.hasStrings
  refine ⟨strtab, ?_, fun name => ?_⟩
  · funext symbol
    rw [nameOf, hstrtab]
  · have hnull := h.null
    rw [symbols] at hnull
    rw [resolveFunctionAddress, hst.load, hstrtab, symbols]
    cases hsymtab : file.loaded.symtab with
    | none =>
      rw [hsymtab] at hnull
      cases hnull
    | some symtab => rfl

theorem resolveFunctionName_eq (h : file.WellFormed) (hst : file.Static st) (rip : BitVec 64) :
    file.resolveFunctionName rip st =
      (file.nameOf (nameLoop rip file.symbols ⟨0, 0, 0⟩), file.loaded) := by
  obtain ⟨strtab, hstrtab⟩ := Option.isSome_iff_exists.mp h.hasStrings
  have hnull := h.null
  rw [symbols] at hnull
  rw [resolveFunctionName, hst.load, hstrtab, symbols, nameOf, hstrtab]
  cases hsymtab : file.loaded.symtab with
  | none =>
    rw [hsymtab] at hnull
    cases hnull
  | some symtab =>
    rw [hsymtab] at hnull
    have hfirst : file.symbolAt symtab 0 = ⟨0, 0, 0⟩ := by
      obtain ⟨_, hget⟩ := List.getElem?_eq_some_iff.mp hnull
      simpa only [entries, List.getElem_map, List.getElem_range] using hget
    simp only [hfirst]

/-- The function with the greatest address up to `rip`. -/
theorem nameLoop_greatest (h : file.WellFormed) {rip : BitVec 64} {symbol : Elf64Sym}
    (hsymbol : symbol ∈ file.functions) (hrip : symbol.stValue ≤ rip) :
    nameLoop rip file.symbols ⟨0, 0, 0⟩ ∈ file.functions ∧
      (nameLoop rip file.symbols ⟨0, 0, 0⟩).stValue ≤ rip ∧
      ∀ symbol' ∈ file.functions, symbol'.stValue ≤ rip →
        symbol'.stValue ≤ (nameLoop rip file.symbols ⟨0, 0, 0⟩).stValue := by
  obtain ⟨hfrom, -, hmax⟩ := nameLoop_spec rip file.symbols ⟨0, 0, 0⟩
  obtain hnull | ⟨hmem, hle⟩ := hfrom
  · have hzero := hmax symbol hsymbol hrip
    rw [hnull] at hzero
    exact absurd (BitVec.le_zero_iff.mp hzero) (h.nonzero symbol hsymbol)
  · exact ⟨hmem, hle, hmax⟩

theorem resolveFunctionAddress_nameOf (h : file.WellFormed) (hst : file.Static st)
    {symbol : Elf64Sym} (hsymbol : symbol ∈ file.functions) :
    (file.resolveFunctionAddress (file.nameOf symbol) st).1 = symbol.stValue := by
  obtain ⟨strtab, hnameOf, hresolve⟩ := h.resolveFunctionAddress_eq hst
  have hnames := h.names
  rw [hresolve]
  rw [hnameOf] at hnames ⊢
  exact addressLoop_of_mem hnames hsymbol

end WellFormed

end KernelFile

/-- The two lookups in any state of the static variables: the address of the function with a name,
the name of the function with the greatest address up to `rip`, and from an address back to it. -/
theorem resolveFunction_inverse (file : KernelFile) (h : file.WellFormed) (st : TraceState)
    (hst : file.Static st) :
    (∀ symbol ∈ file.functions,
      (file.resolveFunctionAddress (file.nameOf symbol) st).1 = symbol.stValue) ∧
    (∀ name, (∀ symbol ∈ file.functions, file.nameOf symbol ≠ name) →
      (file.resolveFunctionAddress name st).1 = 0) ∧
    (∀ rip, (∃ symbol ∈ file.functions, symbol.stValue ≤ rip) →
      ∃ symbol ∈ file.functions, symbol.stValue ≤ rip ∧
        (∀ symbol' ∈ file.functions, symbol'.stValue ≤ rip →
          symbol'.stValue ≤ symbol.stValue) ∧
        (file.resolveFunctionName rip st).1 = file.nameOf symbol) ∧
    ∀ symbol ∈ file.functions,
      (file.resolveFunctionAddress (file.resolveFunctionName symbol.stValue st).1
        (file.resolveFunctionName symbol.stValue st).2).1 = symbol.stValue := by
  have hname (rip : BitVec 64) (hrip : ∃ symbol ∈ file.functions, symbol.stValue ≤ rip) :
      ∃ symbol ∈ file.functions, symbol.stValue ≤ rip ∧
        (∀ symbol' ∈ file.functions, symbol'.stValue ≤ rip →
          symbol'.stValue ≤ symbol.stValue) ∧
        file.resolveFunctionName rip st = (file.nameOf symbol, file.loaded) := by
    obtain ⟨symbol, hsymbol, hle⟩ := hrip
    obtain ⟨hmem, hrip, hmax⟩ := h.nameLoop_greatest hsymbol hle
    exact ⟨_, hmem, hrip, hmax, h.resolveFunctionName_eq hst rip⟩
  refine ⟨fun symbol hsymbol => h.resolveFunctionAddress_nameOf hst hsymbol, fun name hname => ?_,
    fun rip hrip => ?_, fun symbol hsymbol => ?_⟩
  · obtain ⟨strtab, hnameOf, hresolve⟩ := h.resolveFunctionAddress_eq hst
    rw [hresolve]
    apply addressLoop_of_notMem
    rintro hmem
    obtain ⟨symbol, hsymbol, heq⟩ := List.mem_map.mp hmem
    exact hname symbol hsymbol (by rw [hnameOf]; exact heq)
  · obtain ⟨symbol, hsymbol, hle, hmax, heq⟩ := hname rip hrip
    exact ⟨symbol, hsymbol, hle, hmax, congrArg Prod.fst heq⟩
  · obtain ⟨found, hfound, hle, hmax, heq⟩ :=
      hname symbol.stValue ⟨symbol, hsymbol, BitVec.le_refl _⟩
    have hvalue : found.stValue = symbol.stValue :=
      BitVec.le_antisymm hle (hmax symbol hsymbol (BitVec.le_refl _))
    rw [heq]
    dsimp only
    rw [h.resolveFunctionAddress_nameOf (.inr rfl) hfound, hvalue]

end

/-- Two functions, of which the name of one begins with that of the other, and a symbol between
them that is not a function. -/
def exampleFile : KernelFile where
  sections := [⟨0, 2, 0x40, 96⟩, ⟨0, 3, 0xA0, 16⟩]
  shstrtab _ := strtabName
  symbolAt _ i := [⟨0, 0, 0⟩, ⟨1, 0x12, 0x2000⟩, ⟨1, 0x11, 0x1800⟩, ⟨4, 0x12, 0x1000⟩].getD i ⟨0, 0, 0⟩
  stringAt _ i := if i = 1 then stringDsdt else stringDs

theorem exampleFile_wellFormed : exampleFile.WellFormed where
  hasStrings := by decide
  null := by decide
  names := by decide
  addresses := by decide
  nonzero := by decide

theorem resolveFunction_inverse_example :
    (exampleFile.resolveFunctionAddress stringDs {}).1 = 0x1000 ∧
      (exampleFile.resolveFunctionAddress (exampleFile.resolveFunctionName 0x2000 {}).1
        (exampleFile.resolveFunctionName 0x2000 {}).2).1 = 0x2000 := by
  have h := resolveFunction_inverse exampleFile exampleFile_wellFormed {} (.inl rfl)
  exact ⟨h.1 ⟨4, 0x12, 0x1000⟩ (by decide), h.2.2.2 ⟨1, 0x12, 0x2000⟩ (by decide)⟩

end Lethe
