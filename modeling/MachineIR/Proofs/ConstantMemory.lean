import Mathlib.Algebra.Ring.Nat
import MachineIR.Proofs.Arrangement
import MachineIR.Proofs.ImageTables
import MachineIR.Proofs.Rewiring
import MachineIR.Proofs.Sweeps

/-!
This module contains which loads are replaced by what the image holds: those whose address is
constant, whose first byte lies in a section that cannot be written to, and in whose range the loader
patches nothing. Where the range goes on behind the section, nothing is known about its bytes.
-/

namespace MachineIR

def loadSize? (arch : Option Architecture) (t : Ty) : Option Nat :=
  if t = .pointer then
    (arch.map (·.pointerWidth / 8)).filter fun width => 0 < width && width ≤ 8
  else
    some t.byteWidth

structure ResolvedLoad where
  id : InsnId
  insn : Insn
  -- The position of the first byte in the image, and the number of bytes.
  rva : UInt64
  size : Nat
  -- The section of the first byte.
  home : Section
  value : Constant
  -- The number of slots that refer to the load.
  uses : Nat

structure Image.Provides (image : Image) (arch : Option Architecture) (l : ResolvedLoad) : Prop where
  opcode : l.insn.opcode = .loadMem
  address : ∃ a, l.insn.loadAddress? = some a ∧ a.toNat = image.base.toNat + l.rva.toNat
  size : loadSize? arch l.insn.ty = some l.size
  fits : l.rva.toNat + l.size ≤ image.data.length
  home : image.Covered l.rva l.home
  constant : l.home.writable = false
  unpatched : ∀ t ∈ image.symbols, t.patched = true →
    ¬ (l.rva ≤ t.rva ∧ t.rva.toNat < l.rva.toNat + l.size)
  value : Constant.ofBits? l.insn.ty (((arch.map Architecture.byteOrder).getD .little).read
    ((image.data.drop l.rva.toNat).take l.size)) = some l.value

namespace Routine

variable {r : Routine} {t : Ty} {bytes : List UInt8} {c : Constant} {size : Nat}

theorem decode?_eq_some
    : r.decode? t bytes = some (c, size) ↔
        loadSize? r.arch t = some size ∧ size ≤ bytes.length ∧
          Constant.ofBits? t (((r.arch.map Architecture.byteOrder).getD .little).read
            (bytes.take size)) = some c := by
  unfold decode? loadSize?
  by_cases ht : t = .pointer
  . rw [if_pos ht, if_pos ht]
    cases r.arch with
    | none => simp
    | some a =>
      simp only [Option.bind_eq_bind, Option.bind_some, Option.map_some, Option.getD_some,
        Option.pure_def, Option.bind_eq_some_iff, Option.some.injEq, Prod.mk.injEq,
        Option.filter_some, Option.ite_none_right_eq_some, Bool.and_eq_true, decide_eq_true_eq]
      unfold Constant.pointerOfBytes?
      simp only [Option.ite_none_left_eq_some, Option.some.injEq, not_or, Nat.not_lt]
      constructor
      . rintro ⟨c', ⟨⟨hzero, hmax, hlen⟩, rfl⟩, rfl, rfl⟩
        refine ⟨⟨⟨by omega, hmax⟩, rfl⟩, hlen, ?_⟩
        rw [ht]
        rfl
      . rintro ⟨⟨⟨hzero, hmax⟩, rfl⟩, hlen, hc⟩
        rw [ht] at hc
        cases hc
        exact ⟨_, ⟨⟨by omega, hmax, hlen⟩, rfl⟩, rfl, rfl⟩
  . rw [if_neg ht, if_neg ht]
    simp only [Option.bind_eq_bind, Option.pure_def, Option.bind_eq_some_iff, Option.some.injEq,
      Prod.mk.injEq]
    unfold Constant.ofBytes?
    simp only [Option.ite_none_left_eq_some, Nat.not_lt]
    constructor
    . rintro ⟨c', ⟨hlen, hc⟩, rfl, rfl⟩
      exact ⟨rfl, hlen, hc⟩
    . rintro ⟨rfl, hlen, hc⟩
      exact ⟨c, ⟨hlen, hc⟩, rfl, rfl⟩

theorem loadSize?_pos {arch : Option Architecture} {bits : Nat} (h : loadSize? arch t = some size)
    (hc : Constant.ofBits? t bits = some c) : 0 < size := by
  unfold loadSize? at h
  split at h
  . obtain ⟨-, hsize⟩ := Option.filter_eq_some_iff.mp h
    simp only [Bool.and_eq_true, decide_eq_true_eq] at hsize
    exact hsize.1
  . cases t with
    | scalar s =>
      cases h
      cases s <;> decide
    | _ => cases hc

theorem opcode_of_loadAddress? {i : Insn} {a : UInt64} (h : i.loadAddress? = some a)
    : i.opcode = .loadMem := by
  unfold Insn.loadAddress? at h
  obtain ⟨base, hbase, -⟩ := Option.map_eq_some_iff.mp h
  split at hbase
  . assumption
  . assumption
  . cases hbase

theorem readConstant?_steps {image : Image} {a : UInt64}
    : r.readConstant? image t a = some c ↔
        ∃ size home, image.base ≤ a ∧ image.findSection? (a - image.base) = some home ∧
          home.writable = false ∧ r.decode? t (image.bytesFrom (a - image.base)) = some (c, size) ∧
          image.isPatched (a - image.base) size = false := by
  unfold readConstant?
  simp only [Option.bind_eq_bind, Option.bind_none, Option.ite_none_left_eq_some, UInt64.not_lt,
    Option.bind_eq_some_iff, Bool.not_eq_true]
  constructor
  . rintro ⟨hbase, home, hfind, hwritable, ⟨c', size⟩, hdecode, hpatched, hc⟩
    cases hc
    exact ⟨size, home, hbase, hfind, hwritable, hdecode, hpatched⟩
  . rintro ⟨size, home, hbase, hfind, hwritable, hdecode, hpatched⟩
    exact ⟨hbase, home, hfind, hwritable, (c, size), hdecode, hpatched, rfl⟩

theorem readConstant?_eq_some {image : Image} {i : Insn} (hbuilt : image.Built) (id : InsnId)
    (uses : Nat)
    : i.loadAddress?.bind (r.readConstant? image i.ty) = some c ↔
        ∃ rva size home, image.Provides r.arch ⟨id, i, rva, size, home, c, uses⟩ := by
  rw [Option.bind_eq_some_iff]
  constructor
  . rintro ⟨a, ha, hc⟩
    obtain ⟨size, home, hbase, hfind, hwritable, hdecode, hpatched⟩ := readConstant?_steps.mp hc
    obtain ⟨hsize, hlen, hvalue⟩ := decode?_eq_some.mp hdecode
    have hcovered := (Image.findSection?_eq_some hbuilt.sections_sorted).mp hfind
    rw [Image.bytesFrom, List.length_drop] at hlen
    -- At least one byte is read, so the position is not behind the end of the data.
    have hpos := loadSize?_pos hsize hvalue
    have hfits : (a - image.base).toNat + size ≤ image.data.length := by omega
    refine ⟨a - image.base, size, home, ?_⟩
    constructor
    . exact opcode_of_loadAddress? ha
    . refine ⟨a, ha, ?_⟩
      have := UInt64.le_iff_toNat_le.mp hbase
      rw [UInt64.toNat_sub_of_le _ _ hbase]
      omega
    . exact hsize
    . exact hfits
    . exact (Image.findSection?_eq_some hbuilt.sections_sorted).mp hfind
    . exact hwritable
    . rintro t ht hsymbol ⟨hle, hlt⟩
      have := (Image.isPatched_eq_false hbuilt hfits).mp hpatched t ht hsymbol hle
      dsimp only at hlt
      omega
    . exact hvalue
  . rintro ⟨rva, size, home, h⟩
    obtain ⟨a, ha, haddress⟩ := h.address
    have hbase : image.base ≤ a := by
      rw [UInt64.le_iff_toNat_le, haddress]
      apply Nat.le_add_right
    have hrva : a - image.base = rva := by
      rw [← UInt64.toNat_inj, UInt64.toNat_sub_of_le _ _ hbase, haddress]
      apply Nat.add_sub_cancel_left
    refine ⟨a, ha, readConstant?_steps.mpr ⟨size, home, hbase, ?_, h.constant, ?_, ?_⟩⟩
    . rw [hrva]
      exact (Image.findSection?_eq_some hbuilt.sections_sorted).mpr h.home
    . rw [hrva, decode?_eq_some, Image.bytesFrom, List.length_drop]
      have hfits := h.fits
      dsimp only at hfits
      exact ⟨h.size, by omega, h.value⟩
    . rw [hrva, Image.isPatched_eq_false hbuilt h.fits]
      intro t ht hpatched hle
      apply Nat.le_of_not_lt
      intro hlt
      exact h.unpatched t ht hpatched ⟨hle, hlt⟩

end Routine

namespace Edit

open Routine

/--
Along the instructions `ids`, the loads `loads` are replaced one after the other; the other ones are
no loads of which the image knows what they find.
-/
inductive Resolves (image : Image) : List InsnId → Routine → List ResolvedLoad → Routine → Prop
  | nil (r : Routine) : Resolves image [] r [] r
  | keep {id : InsnId} {ids : List InsnId} {r r' : Routine} {i : Insn} {loads : List ResolvedLoad}
    (hi : r.insn? id = some i)
    (hnone : ∀ l : ResolvedLoad, l.insn = i → ¬ image.Provides r.arch l)
    (hrest : Resolves image ids r loads r') : Resolves image (id :: ids) r loads r'
  | replace {ids : List InsnId} {r r₁ r' : Routine} {l : ResolvedLoad} {loads : List ResolvedLoad}
    (hi : r.insn? l.id = some l.insn) (hprovides : image.Provides r.arch l)
    (huses : l.uses = r.useCount (.insn l.id))
    (hreplaced : Replaced r r₁ (.insn l.id) (.const l.value))
    (hrest : Resolves image ids r₁ loads r') : Resolves image (l.id :: ids) r (l :: loads) r'

theorem arch_of_bare_eq {r r' : Routine} {v : ValueId} {x : Operand}
    (h : r'.bare = r.bare.substitute v x) : r'.arch = r.arch := by
  have := congrArg Routine.arch h
  exact this

theorem Resolves.provides {image : Image} {ids : List InsnId} {r r' : Routine}
    {loads : List ResolvedLoad} (h : Resolves image ids r loads r')
    : ∀ l ∈ loads, image.Provides r.arch l := by
  induction h with
  | nil r =>
    intro l hl
    cases hl
  | keep hi hnone hrest ih => exact ih
  | replace hi hprovides huses hreplaced hrest ih =>
    rw [arch_of_bare_eq hreplaced.bare] at ih
    intro l hl
    rcases List.mem_cons.mp hl with rfl | hl
    . exact hprovides
    . exact ih l hl

theorem resolveLoad_foldlM {image : Image} (hbuilt : image.Built) {r : Routine} {ids : List InsnId}
    (htracked : r.Tracked) (hsmall : r.Small) (hlive : ∀ id ∈ ids, r.contains (.insn id) = true)
    (total : Nat)
    : ∃ loads r', Resolves image ids r loads r' ∧
        ids.foldlM (counting (resolveLoad image)) total r =
          .ok (total + (loads.map ResolvedLoad.uses).sum) r' := by
  -- Each load is looked at in the routine that the replacements before it have left.
  induction ids generalizing r total with
  | nil => exact ⟨[], r, .nil r, rfl⟩
  | cons id rest ih =>
    have hid := hlive id List.mem_cons_self
    obtain ⟨i, hi⟩ : ∃ i, r.insn? id = some i := by
      simpa [contains, Option.isSome_iff_exists] using hid
    have hknown : knownInsn id r = .ok i r := by simp [knownInsn, hi]
    rw [List.foldlM_cons]
    cases hread : i.loadAddress?.bind (r.readConstant? image i.ty) with
    | none =>
      have hrun : resolveLoad image id r = .ok 0 r := by
        unfold resolveLoad
        rw [bind_of_ok hknown, get_bind_run, hread]
        rfl
      obtain ⟨loads, r', hresolves, hfold⟩ := ih htracked hsmall
        (fun j hj => hlive j (List.mem_cons_of_mem id hj)) total
      refine ⟨loads, r', .keep hi ?_ hresolves, ?_⟩
      . rintro ⟨id', i', rva, size, home, c, uses⟩ rfl hprovides
        have := (readConstant?_eq_some hbuilt id' uses).mpr ⟨rva, size, home, hprovides⟩
        rw [hread] at this
        cases this
      . rw [bind_of_ok (counting_of_ok hrun)]
        exact hfold
    | some c =>
      obtain ⟨rva, size, home, hprovides⟩ :=
        (readConstant?_eq_some hbuilt id (r.useCount (.insn id))).mp hread
      obtain ⟨r₁, hreplace, hreplaced⟩ := replaceUses_run htracked hsmall hid (x := .const c)
        (by
          intro w heq
          cases heq)
        (by
          intro heq
          cases heq)
      have hrun : resolveLoad image id r = .ok (r.useCount (.insn id)) r₁ := by
        unfold resolveLoad
        rw [bind_of_ok hknown, get_bind_run, hread]
        exact hreplace
      have hlive₁ : ∀ j ∈ rest, r₁.contains (.insn j) = true := by
        intro j hj
        rw [← contains_bare, hreplaced.bare]
        have := hlive j (List.mem_cons_of_mem id hj)
        rw [← contains_bare] at this
        simpa [contains] using this
      obtain ⟨loads, r', hresolves, hfold⟩ := ih hreplaced.tracked (hreplaced.small hsmall) hlive₁
        (total + r.useCount (.insn id))
      refine ⟨⟨id, i, rva, size, home, c, r.useCount (.insn id)⟩ :: loads, r',
        .replace hi hprovides rfl hreplaced hresolves, ?_⟩
      rw [bind_of_ok (counting_of_ok hrun), hfold]
      rw [List.map_cons, List.sum_cons, Nat.add_assoc]

end Edit

def Image.ReadOnly (image : Image) (start stop : Nat) : Prop :=
  ∀ n, start ≤ n → n < stop →
    ∃ s ∈ image.sections, s.writable = false ∧ s.start.toNat ≤ n ∧ n < s.stop.toNat

theorem Image.Provides.readOnly_iff {image : Image} {arch : Option Architecture} {l : ResolvedLoad}
    (h : image.Provides arch l)
    : image.ReadOnly l.rva.toNat (l.rva.toNat + l.size) ↔
        image.ReadOnly l.home.stop.toNat (l.rva.toNat + l.size) := by
  obtain ⟨⟨front, back, heq, -⟩, hstart, hstop⟩ := h.home
  rw [UInt64.le_iff_toNat_le] at hstart
  rw [UInt64.lt_iff_toNat_lt] at hstop
  constructor
  . intro hall n hn
    exact hall n (by omega)
  . intro hall n hn hlt
    by_cases hhome : n < l.home.stop.toNat
    . exact ⟨l.home, by simp [heq], h.constant, by omega, hhome⟩
    . exact hall n (by omega) hlt

namespace Edit

open Routine

theorem resolveLoads_resolves (actions : List Action) (hsmall : (after actions).Small)
    {image : Image} (himage : (after actions).image = some image) (hbuilt : image.Built) (b : BlockId)
    (hb : (after actions).block? b ≠ none) (debug : Bool)
    : ∃ loads r', Resolves image ((after actions).insnsOf b) (after actions) loads r' ∧
        resolveLoads b debug (after actions) = complete b (loads.map ResolvedLoad.uses).sum debug r' ∧
        ∀ l ∈ loads, image.Provides (after actions).arch l ∧
          (image.ReadOnly l.rva.toNat (l.rva.toNat + l.size) ↔
            image.ReadOnly l.home.stop.toNat (l.rva.toNat + l.size)) := by
  have htracked := tracked_after actions hsmall
  have harranged := arranged_after actions hsmall
  generalize after actions = r at hsmall himage hb htracked harranged ⊢
  obtain ⟨ids, hids⟩ := harranged.holds b (block?_ne_none_iff.mpr hb)
  have hlive : ∀ id ∈ ids, r.contains (.insn id) = true := by
    intro id hid
    obtain ⟨i, hi, -⟩ := hids.mem_iff.mp hid
    simp [contains, hi]
  obtain ⟨loads, r', hresolves, hfold⟩ := resolveLoad_foldlM hbuilt htracked hsmall hlive 0
  rw [hids.lists.insnsOf_eq]
  refine ⟨loads, r', hresolves, ?_, ?_⟩
  . have hsweep : sweep b .forward (resolveLoad image) r =
        .ok (loads.map ResolvedLoad.uses).sum r' := by
      rw [sweep_eq_foldlM (coversInPlace_samePlaces.resolveLoad image) hids.lists .forward,
        ← Nat.zero_add (List.sum _)]
      exact hfold
    rw [resolveLoads_of_image himage]
    exact bind_of_ok hsweep
  . intro l hl
    have hprovides := hresolves.provides l hl
    exact ⟨hprovides, hprovides.readOnly_iff⟩

def tableImage : Image :=
  (({ base := 4096, data := [1, 2, 3, 4, 5, 6, 7, 8] } : Image).addSection
    { name := ".rdata", start := 0, stop := 8 }).addSymbol { name := "slot", rva := 4, patched := true }

def tableLoads : List Action :=
  [.setImage (some tableImage), .addBlock,
    .pushBack (.ofNat 0) (.loadAbsolute .i32 4096),
    .pushBack (.ofNat 0) (.writeReg (.ofNat 1 1) (.insn (.ofNat 0)) .i32),
    .pushBack (.ofNat 0) (.loadAbsolute .i64 4096),
    .pushBack (.ofNat 0) (.writeReg (.ofNat 2 1) (.insn (.ofNat 2)) .i64)]

theorem tableImage_built : tableImage.Built :=
  .addSymbol _ (.addSection _ (.mapped 4096 [1, 2, 3, 4, 5, 6, 7, 8] (by decide)))

theorem resolveLoads_tableLoads
    : (left (resolveLoads (.ofNat 0) true) (after tableLoads)).operand? (.ofNat 1) 1 =
          some (.const (.scalar .i32 0x04030201)) ∧
        (left (resolveLoads (.ofNat 0) true) (after tableLoads)).operand? (.ofNat 3) 1 =
          some (.insn (.ofNat 2)) ∧
        ∃ loads r', Resolves tableImage ((after tableLoads).insnsOf (.ofNat 0)) (after tableLoads)
            loads r' ∧
          resolveLoads (.ofNat 0) true (after tableLoads) =
            complete (.ofNat 0) (loads.map ResolvedLoad.uses).sum true r' ∧
          ∀ l ∈ loads, tableImage.Provides (after tableLoads).arch l ∧
            (tableImage.ReadOnly l.rva.toNat (l.rva.toNat + l.size) ↔
              tableImage.ReadOnly l.home.stop.toNat (l.rva.toNat + l.size)) := by
  refine ⟨by decide +kernel, by decide +kernel, ?_⟩
  apply resolveLoads_resolves tableLoads
  . constructor
    . decide +kernel
    . decide +kernel
    . decide +kernel
  . rfl
  . exact tableImage_built
  . decide +kernel

def straddledImage : Image :=
  (({ base := 4096, data := [1, 2, 3, 4, 5, 6, 7, 8] } : Image).addSection
    { name := ".rdata", start := 0, stop := 4 }).addSection
    { name := ".data", start := 4, stop := 8, writable := true }

def straddlingLoad : List Action :=
  [.setImage (some straddledImage), .addBlock,
    .pushBack (.ofNat 0) (.loadAbsolute .i64 4096),
    .pushBack (.ofNat 0) (.writeReg (.ofNat 0 1) (.insn (.ofNat 0)) .i64)]

theorem resolveLoads_straddlingLoad
    : (((after straddlingLoad).insn? (.ofNat 0)).bind Insn.loadAddress? = some 4096) ∧
        (left (resolveLoads (.ofNat 0) true) (after straddlingLoad)).operand? (.ofNat 1) 1 =
          some (.const (.i64 0x0807060504030201)) ∧
        straddledImage.Built ∧ ¬ straddledImage.ReadOnly 0 8 := by
  refine ⟨by decide +kernel, by decide +kernel, ?_, ?_⟩
  . exact .addSection _ (.addSection _ (.mapped 4096 [1, 2, 3, 4, 5, 6, 7, 8] (by decide)))
  . intro h
    obtain ⟨s, hs, hwritable, hstart, hstop⟩ := h 4 (by decide) (by decide)
    have hsections : straddledImage.sections =
        [{ name := ".rdata", start := 0, stop := 4 },
          { name := ".data", start := 4, stop := 8, writable := true }] := by decide +kernel
    rw [hsections] at hs
    simp only [List.mem_cons, List.not_mem_nil, or_false] at hs
    rcases hs with rfl | rfl
    . exact absurd hstop (by decide)
    . cases hwritable

end Edit

end MachineIR
