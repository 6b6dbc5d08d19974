import MachineIR.Proofs.RegisterChanges

/-!
This module contains that the register forwarding is a simulation. What is known of the registers is
what they hold in every run, and nothing that the sweep or the removal of dead code changes shows.
-/

namespace MachineIR

open Routine Edit Instruction

section Undisturbed

variable {r r' : Routine} {b : BlockId} {width : Register → Nat} {id j c q : InsnId}
  {i : Instruction} {x : Register} {w : Bool} {y : Operand} {p : Producer}
  {front extra : List InsnId}

namespace Routine

theorem undisturbed_of_opcode (hi : r.code? j = some i)
    (htouch : i.opcode.touchesRegisters = false) (hwrite : i.opcode ≠ .writeReg)
    (hread : i.opcode ≠ .readReg) : r.Undisturbed x w j := by
  intro k hk
  rw [hi] at hk
  cases hk
  exact ⟨htouch, by simp [write?_eq_none hwrite], by simp [readRegister?_eq_none hread]⟩

theorem undisturbed_of_read {x' : Register} (hi : r.code? j = some i)
    (hread : i.readRegister? = some x) (hx : x' = x → w = true → ¬ r.Used j)
    : r.Undisturbed x' w j := by
  intro k hk
  rw [hi] at hk
  cases hk
  have hopcode := (readRegister?_eq_some.mp hread).1
  have hwrite : i.write? = none := write?_eq_none (by rw [hopcode]; decide)
  refine ⟨by rw [hopcode]; rfl, by simp [hwrite], ?_⟩
  intro hw hx'
  rw [hread] at hx'
  cases hx'
  exact hx rfl hw

theorem undisturbed_of_write {x' : Register} (hi : r.code? j = some i)
    (hwrite : i.write? = some (x, y)) (hne : x' ≠ x) : r.Undisturbed x' w j := by
  intro k hk
  rw [hi] at hk
  cases hk
  have hopcode := (write?_eq_some.mp hwrite).1
  have hread : i.readRegister? = none := readRegister?_eq_none (by rw [hopcode]; decide)
  refine ⟨by rw [hopcode]; rfl, ?_, by simp [hread]⟩
  intro z hz
  rw [hwrite] at hz
  cases hz
  exact hne rfl

namespace Undisturbed

theorem replaced (h : r.Undisturbed x w j) (hregular : ∀ i, r.code? j = some i → i.Regular width)
    (hreplaced : Replaced r r' (.insn id) y)
    (hy : ∀ i, r.code? j = some i → i.readRegister? = some x → w = true → ¬ r.Used j → y ≠ .insn j)
    : r'.Undisturbed x w j := by
  intro k hk
  rw [hreplaced.code] at hk
  obtain ⟨i, hi, rfl⟩ := Option.map_eq_some_iff.mp hk
  obtain ⟨htouch, hwrite, hread⟩ := h i hi
  refine ⟨htouch, ?_, ?_⟩
  . intro z hz
    rw [(hregular i hi).write?_substitute] at hz
    obtain ⟨⟨x', z'⟩, hz', heq⟩ := Option.map_eq_some_iff.mp hz
    cases heq
    exact hwrite z' hz'
  . rw [(hregular i hi).readRegister?_substitute]
    rintro hw hx ⟨u, hu⟩
    rcases hreplaced.refers_iff.mp hu with ⟨-, hu⟩ | ⟨heq, -⟩
    . exact hread hw hx ⟨u, hu⟩
    . exact hy i hi hx hw (hread hw hx) heq

theorem of_code (h : r.Undisturbed x w j) (hcode : ∀ i, r'.code? j = some i → r.code? j = some i)
    (hused : ∀ i, r.code? j = some i → i.readRegister? = some x → w = true → ¬ r.Used j →
      ¬ r'.Used j)
    : r'.Undisturbed x w j := by
  intro i hi
  obtain ⟨htouch, hwrite, hread⟩ := h i (hcode i hi)
  exact ⟨htouch, hwrite, fun hw hx => hused i (hcode i hi) hx hw (hread hw hx)⟩

theorem erased (h : r.Undisturbed x w j) (herased : Erased r r' q) : r'.Undisturbed x w j := by
  apply h.of_code
  . intro i hi
    rw [herased.code] at hi
    split at hi
    . cases hi
    . exact hi
  . rintro i - - - hunused ⟨u, hu⟩
    exact hunused ⟨u, (herased.refers_iff.mp hu).2⟩

theorem inserted {k : Instruction} (h : r.Undisturbed x w j) (hne : j ≠ c)
    (hinserted : Inserted r r' id k c)
    (hk : ∀ i, r.code? j = some i → i.readRegister? = some x → w = true → ¬ r.Used j →
      .insn j ∉ k.operands)
    : r'.Undisturbed x w j := by
  apply h.of_code
  . intro i hi
    obtain ⟨ip, hcode⟩ := hinserted.code
    rwa [hcode, if_neg hne] at hi
  . rintro i hi hx hw hunused ⟨u, hu⟩
    rcases hinserted.refers_iff.mp hu with ⟨-, hu⟩ | ⟨-, hmem⟩
    . exact hunused ⟨u, hu⟩
    . exact hk i hi hx hw hunused hmem

theorem rewired (h : r.Undisturbed x w j) (hne : j ≠ id) (hrewired : r.Rewired r' id)
    : r'.Undisturbed x w j := by
  apply h.of_code
  . intro i hi
    obtain ⟨k, k', -, -, -, -, hcode, -⟩ := hrewired.code
    rwa [hcode, if_neg hne] at hi
  . rintro i - - - hunused ⟨u, hu⟩
    rcases hrewired.refers hu with hu | ⟨-, -, hused⟩
    . exact hunused ⟨u, hu⟩
    . exact hunused hused

end Undisturbed

namespace Retains

theorem of_last (front : List InsnId) : r.Retains (front ++ [p.insn]) x p :=
  ⟨front, [], rfl, by simp⟩

theorem append (h : r.Retains front x p) (hextra : ∀ j ∈ extra, r.Undisturbed x p.isWrite j)
    : r.Retains (front ++ extra) x p := by
  obtain ⟨first, mid, rfl, hmid⟩ := h
  refine ⟨first, mid ++ extra, by simp, ?_⟩
  intro j hj
  exact (List.mem_append.mp hj).elim (hmid j) (hextra j)

theorem map (h : r.Retains front x p)
    (hfront : ∀ j ∈ front, r.Undisturbed x p.isWrite j → r'.Undisturbed x p.isWrite j)
    : r'.Retains front x p := by
  obtain ⟨first, mid, rfl, hmid⟩ := h
  exact ⟨first, mid, rfl, fun j hj => hfront j (by simp [hj]) (hmid j hj)⟩

theorem remove {back : List InsnId} (h : r.Retains (front ++ q :: back) x p) (hne : p.insn ≠ q)
    : r.Retains (front ++ back) x p := by
  obtain ⟨first, mid, heq, hmid⟩ := h
  rcases List.append_eq_append_iff.mp heq with ⟨l, rfl, hl⟩ | ⟨l, rfl, hl⟩
  . cases l with
    | nil => exact absurd (List.cons.inj hl).1.symm hne
    | cons a rest =>
      obtain ⟨rfl, rfl⟩ := List.cons.inj hl
      exact ⟨front ++ rest, mid, by simp, hmid⟩
  . cases l with
    | nil => exact absurd (List.cons.inj hl).1 hne
    | cons a rest =>
      rw [List.cons_append] at hl
      obtain ⟨rfl, rfl⟩ := List.cons.inj hl
      refine ⟨first, rest ++ back, by simp, ?_⟩
      intro j hj
      apply hmid j
      simp only [List.mem_append, List.mem_cons] at hj ⊢
      tauto

end Retains

end Routine

end Undisturbed

/--
A sweep that began at `start` has come to `todo`: so far nothing has changed in the runs through the
block, and the registers hold what is `known` of them.
-/
structure Mirrored {W : Type} (E : Interpretation W) (s : Stage W) (width : Register → Nat)
    (b : BlockId) (start : Routine) (todo : List InsnId) (known : Register → Producer → Prop)
    (r : Routine) : Prop where
  simulates : E.Simulates s b start r
  regular : r.RegularIn width b
  ordered : r.DefOrdered
  retains : ∃ front, r.insnsOf b = front ++ todo ∧ ∀ x p, known x p → r.Retains front x p

structure Content {W : Type} (E : Interpretation W) (s : Stage W) (b : BlockId) (id : InsnId)
    (todo : List InsnId) (known : Register → Producer → Prop) (r : Routine) (x : Register)
    (y : Operand) : Prop where
  fixed : y.registers = []
  -- It has been computed before.
  ranked : ∀ ρ, r.Ranked ρ → ∀ j, y = .insn j → ρ j < ρ id
  -- It is not the result of a read that is not used, which can become different.
  unread : ∀ x p j i, known x p → p.isWrite = true → r.code? j = some i →
    i.readRegister? = some x → ¬ r.Used j → y ≠ .insn j
  held : ∀ front, r.insnsOf b = front ++ id :: todo →
    (E.run r front s).registers x = E.operand (E.run r front s) y

namespace Mirrored

variable {W : Type} {E : Interpretation W} {s : Stage W} {width : Register → Nat} {b : BlockId}
  {start r r' : Routine} {todo : List InsnId} {known known' : Register → Producer → Prop}
  {id c q : InsnId} {i k : Instruction} {x : Register} {y z : Operand} {t t' : Ty}
  {front : List InsnId}

theorem advance (h : Mirrored E s width b start (id :: todo) known r)
    (hknown : ∀ x p, known' x p → p.insn = id ∨ known x p ∧ r.Undisturbed x p.isWrite id)
    : Mirrored E s width b start todo known' r := by
  obtain ⟨front, hlist, hretains⟩ := h.retains
  refine ⟨h.simulates, h.regular, h.ordered, front ++ [id], by simp [hlist], ?_⟩
  intro x p hp
  rcases hknown x p hp with rfl | ⟨hp, hid⟩
  . exact .of_last front
  . exact (hretains x p hp).append (by simpa using hid)

theorem mono (h : Mirrored E s width b start todo known r) (hknown : ∀ x p, known' x p → known x p)
    : Mirrored E s width b start todo known' r := by
  obtain ⟨front, hlist, hretains⟩ := h.retains
  exact ⟨h.simulates, h.regular, h.ordered, front, hlist, fun x p hp => hretains x p (hknown x p hp)⟩

theorem skip {known : Producers}
    (h : Mirrored E s width b start (id :: todo) (known.lookup · = some ·) r)
    (hi : r.code? id = some i) (hother : ∀ x, ¬ r.Writes id x ∧ ¬ r.Reads id x)
    : Mirrored E s width b start todo
        (List.lookup · (if i.opcode.touchesRegisters then [] else known) = some ·) r := by
  apply h.advance
  intro x p hp
  by_cases htouch : i.opcode.touchesRegisters = true
  . rw [if_pos htouch] at hp
    cases hp
  . rw [if_neg htouch] at hp
    refine Or.inr ⟨hp, ?_⟩
    intro k hk
    rw [hi] at hk
    cases hk
    refine ⟨by simpa using htouch, ?_, ?_⟩
    . intro y hy
      obtain ⟨hopcode, hoperands⟩ := write?_eq_some.mp hy
      exact (hother x).1 ⟨i, hi, hopcode, by simp [hoperands]⟩
    . intro _ hx
      obtain ⟨hopcode, hoperands⟩ := readRegister?_eq_some.mp hx
      exact absurd ⟨i, hi, hopcode, by simp [hoperands]⟩ (hother x).2

theorem learn {known : Producers} {w : Bool}
    (h : Mirrored E s width b start (id :: todo) (fun x' p => known.lookup x' = some p ∧ x' ≠ x) r)
    (hother : ∀ x' w, x' ≠ x → r.Undisturbed x' w id)
    : Mirrored E s width b start todo (List.lookup · ((x, ⟨id, w⟩) :: known) = some ·) r := by
  apply h.advance
  intro x' p hp
  rw [Forwards.lookup_cons_eq] at hp
  split at hp
  . cases hp
    exact Or.inl rfl
  . next hne => exact Or.inr ⟨⟨hp, hne⟩, hother x' p.isWrite hne⟩

theorem overwritten (h : Mirrored E s width b start (id :: todo) known r) (hr : r.Intact)
    (hknown : known x ⟨q, true⟩) (hk : r.code? q = some k) (hfirst : k.write? = some (x, y))
    (hi : r.code? id = some i) (hsecond : i.write? = some (x, z)) (herased : Erased r r' q)
    (hknown' : ∀ x p, known' x p → known x p ∧ p.insn ≠ q)
    : Mirrored E s width b start (id :: todo) known' r' := by
  obtain ⟨front, hlist, hretains⟩ := h.retains
  obtain ⟨ρ, hranked⟩ := h.ordered
  obtain ⟨first, mid, rfl, hmid⟩ := hretains x ⟨q, true⟩ hknown
  dsimp only at hlist hretains
  rw [List.append_assoc, List.cons_append] at hlist
  -- only the write itself could refer to the write, and its operands come before it
  have hfree : ¬ r.Used q := by
    rintro ⟨j, hj⟩
    cases herased.free j hj
    obtain ⟨k', hk', hmem⟩ := hj
    rw [hk] at hk'
    cases hk'
    refine Nat.lt_irrefl _ (hranked.operand q k q hk ?_ hmem)
    rw [(write?_eq_some.mp hfirst).1]
    decide
  have hlist' := herased.insnsOf_eq hr.arranged hlist
  refine ⟨?_, h.regular.erased hr herased, ⟨ρ, hranked.erased hr.arranged herased⟩,
    first ++ mid, by rw [hlist', List.append_assoc], ?_⟩
  . refine h.simulates.trans (Interpretation.simulates_overwritten hr h.regular hlist hk hfirst
      hi hsecond hmid hfree herased) ?_
    intro j _ hj
    rw [herased.insnsOf hr.arranged] at hj
    exact (List.mem_filter.mp hj).1
  . intro x' p' hp'
    obtain ⟨hp', hne⟩ := hknown' x' p' hp'
    exact ((hretains x' p' hp').remove hne).map fun j _ hj => hj.erased herased

theorem inserted (h : Mirrored E s width b start (id :: todo) known r) (hr : r.Intact)
    (hstart : start.Intact) (hsize : start.insns.size ≤ r.insns.size)
    (hy : Content E s b id todo known r x y) (hinserted : Inserted r r' id (.bitcast t t' y) c)
    : Mirrored E s width b start (id :: todo) known r' := by
  obtain ⟨front, hlist, hretains⟩ := h.retains
  obtain ⟨ρ, hranked⟩ := h.ordered
  have hlist' := hinserted.insnsOf_eq hr.arranged hlist
  obtain ⟨ip, hcode⟩ := hinserted.code
  refine ⟨?_, ?_, ⟨_, hranked.inserted hr ?_ hinserted⟩, front ++ [c], by simp [hlist'], ?_⟩
  . refine h.simulates.trans (Interpretation.simulates_inserted hr h.regular (by simp [hlist])
      hinserted) ?_
    intro j hj hj'
    rw [hinserted.insnsOf hr.arranged, Inserted.mem_putBefore] at hj'
    -- handles are not given out again, so what has been there at the start is not the conversion
    refine hj'.resolve_left fun hnew => ?_
    obtain ⟨k, hk, -⟩ := hstart.arranged.mem_insnsOf.mp hj
    have hlt := Nat.lt_of_lt_of_le (Store.lt_size_of_get? hk) hsize
    rw [hnew.1, hinserted.fresh, InsnId.toNat_ofNat hinserted.size] at hlt
    exact Nat.lt_irrefl _ hlt
  . refine h.regular.inserted hr (fun ip => .of_opcode ?_ ?_ ?_) hinserted
    . simp [bitcast, make]
    . simp [bitcast, make]
    . simpa [bitcast, make] using hy.fixed
  . intro j hj
    apply hy.ranked ρ hranked
    simpa [bitcast, make, eq_comm] using hj
  . intro x p hp
    refine ((hretains x p hp).map ?_).append ?_
    . intro j hj hundisturbed
      refine hundisturbed.inserted ?_ hinserted ?_
      . obtain ⟨k, hk, -⟩ := hr.arranged.mem_insnsOf.mp (show j ∈ r.insnsOf b by simp [hlist, hj])
        exact hinserted.ne (code?_of_insn? hk)
      . intro i hi hread hw hfree hmem
        refine hy.unread x p j i hp hw hi hread hfree ?_
        simpa [bitcast, make, eq_comm] using hmem
    . intro j hj
      cases List.mem_singleton.mp hj
      exact undisturbed_of_opcode (by rw [hcode, if_pos rfl]) rfl (by simp [bitcast, make])
        (by simp [bitcast, make])

theorem content_inserted (hr : r.Intact) (hr' : r'.Intact) (hlist : r.insnsOf b = front ++ id :: todo)
    (hy : Content E s b id todo known r x y) (hinserted : Inserted r r' id (.bitcast t t' y) c)
    (ht : t.isSymbolic = false) (ht' : t'.isSymbolic = false) (hwidth : t.bitWidth = t'.bitWidth)
    : Content E s b id todo known r' x (.insn c) := by
  have hlist' := hinserted.insnsOf_eq hr.arranged hlist
  obtain ⟨ip, hcode⟩ := hinserted.code
  constructor
  . rfl
  . intro ρ hranked j hj
    cases hj
    exact hranked.lt_of_mem hlist' List.mem_cons_self
  . intro x p j i _ _ hi hread _ heq
    cases heq
    rw [hcode, if_pos rfl] at hi
    cases hi
    rw [readRegister?_eq_none (by simp [bitcast, make])] at hread
    cases hread
  . intro front' hfront'
    have hc : c ∉ front := by
      intro hmem
      have hnodup := hr'.arranged.nodup_insnsOf b
      rw [hlist'] at hnodup
      exact (List.nodup_append.mp hnodup).2.2 c hmem c List.mem_cons_self rfl
    have heq : front' ++ id :: todo = (front ++ [c]) ++ id :: todo := by
      rw [← hfront', hlist', List.append_assoc]
      rfl
    rw [List.append_cancel_right heq]
    exact Interpretation.registers_run_inserted hinserted hc ht ht' hwidth (hy.held front hlist)

theorem replaced (h : Mirrored E s width b start (id :: todo) known r) (hr : r.Intact)
    (hi : r.code? id = some i) (hread : i.readRegister? = some x)
    (hy : Content E s b id todo known r x y) (hreplaced : Replaced r r' (.insn id) y)
    : Mirrored E s width b start (id :: todo) known r' := by
  obtain ⟨front, hlist, hretains⟩ := h.retains
  obtain ⟨ρ, hranked⟩ := h.ordered
  have hlist' := hreplaced.samePlaces.insnsOf hr.arranged b
  have hback : ∀ j ∈ id :: todo, y ≠ .insn j := by
    intro j hj heq
    have hlt := hy.ranked ρ hranked j heq
    rcases List.mem_cons.mp hj with rfl | hj
    . exact Nat.lt_irrefl _ hlt
    . exact Nat.lt_asymm hlt (hranked.lt_of_mem hlist hj)
  refine ⟨?_, h.regular.replaced hr hy.fixed hreplaced,
    ⟨ρ, hranked.replaced hr.arranged (hy.ranked ρ hranked) hreplaced⟩, front, hlist'.trans hlist, ?_⟩
  . refine h.simulates.trans (Interpretation.simulates_replaced hr h.regular hranked hlist hi hread
      hback hy.fixed (hy.held front hlist) hreplaced) ?_
    intro j _ hj
    rwa [hlist'] at hj
  . intro x' p' hp'
    refine (hretains x' p' hp').map ?_
    intro j hj hundisturbed
    refine hundisturbed.replaced (h.regular j (by simp [hlist, hj])) hreplaced ?_
    intro i hi hread hw
    exact hy.unread x' p' j i hp' hw hi hread

theorem retired (h : Mirrored E s width b start (id :: todo) known r) (hr : r.Intact)
    (hi : r.code? id = some i) (hread : i.opcode = .readReg) (hfree : ¬ r.Used id)
    : Mirrored E s width b start (id :: todo) known
        (r.modifyInsn id ({ · with opcode := .nop })) := by
  obtain ⟨front, hlist, hretains⟩ := h.retains
  obtain ⟨ρ, hranked⟩ := h.ordered
  have hrewired := rewired_nop hi (by rw [hread]; decide)
  have hlist' := hrewired.places.insnsOf hr.arranged b
  refine ⟨?_, h.regular.retired hr hi hread, ⟨ρ, hranked.rewired hr.arranged hrewired⟩, front,
    hlist'.trans hlist, ?_⟩
  . refine h.simulates.trans (Interpretation.simulates_retired hr h.regular (by simp [hlist]) hfree hi
      hread) ?_
    intro j _ hj
    rwa [hlist'] at hj
  . intro x p hp
    refine (hretains x p hp).map ?_
    intro j hj hundisturbed
    refine hundisturbed.rewired ?_ hrewired
    rintro rfl
    obtain ⟨first, mid, rfl⟩ := List.append_of_mem hj
    rw [List.append_assoc] at hlist
    exact Nat.lt_irrefl _ (hranked.lt_of_mem hlist (by simp))

end Mirrored

namespace Forwards

variable {W : Type} {E : Interpretation W} {s : Stage W} {width : Register → Nat} {b : BlockId}
  {start r r' : Routine} {id : InsnId} {todo : List InsnId} {known known' : Producers} {n : Nat}

theorem content (hscanned : Scanned b known (id :: todo) r)
    (h : Mirrored E s width b start (id :: todo) (known.lookup · = some ·) r)
    {x : Register} {p : Producer} (hlookup : known.lookup x = some p)
    : ∃ y t, r.content? p = some (y, t) ∧ t.isSymbolic = false ∧ t.bitWidth = width x ∧
        Content E s b id todo (known.lookup · = some ·) r x y := by
  obtain ⟨front, hlist, hknown⟩ := hscanned.rest
  obtain ⟨hmem, haccess⟩ := hknown x p hlookup
  obtain ⟨y, t, hsome, hsupplies, hy, ht, hwidth⟩ :=
    h.regular.exists_content (by simp [hlist, hmem]) haccess
  obtain ⟨front', hlist', hretains⟩ := h.retains
  refine ⟨y, t, hsome, ht, hwidth, hy, ?_, ?_, ?_⟩
  . intro ρ hranked j hj
    exact (hretains x p hlookup).lt hsupplies hranked hlist' List.mem_cons_self hj
  . intro x' p' j i hp' hw hi hread hunused
    refine hsupplies.ne_of_unused hi hread hunused ?_
    rintro rfl
    rw [hlookup] at hp'
    cases hp'
    exact hw
  . intro front₁ hlist₁
    obtain ⟨ρ, hranked⟩ := h.ordered
    rw [List.append_cancel_right (hlist₁.symm.trans hlist')]
    exact (hretains x p hlookup).registers_eq hsupplies hranked hy hlist'

section Visits

variable (hscanned : Scanned b known (id :: todo) r)
  (h : Mirrored E s width b start (id :: todo) (known.lookup · = some ·) r) {x : Register}

include hscanned h

theorem mirrored_overwrite {q : InsnId} (hwrite : r.Writes id x)
    (hlookup : known.lookup x = some ⟨q, true⟩) (herased : Erased r r' q)
    : Mirrored E s width b start todo (List.lookup · ((x, ⟨id, true⟩) :: known) = some ·) r' := by
  obtain ⟨front, hlist, hknown⟩ := hscanned.rest
  obtain ⟨hq, haccess⟩ := hknown x ⟨q, true⟩ hlookup
  have hother : ∀ x' p, known.lookup x' = some p → x' ≠ x → p.insn ≠ q := by
    rintro x' p hp hne rfl
    exact hne (haccess.unique (hknown x' p hp).2).2
  have hne : id ≠ q := by
    rintro rfl
    have hnodup := hscanned.intact.arranged.nodup_insnsOf b
    rw [hlist] at hnodup
    exact (List.nodup_append.mp hnodup).2.2 id hq id List.mem_cons_self rfl
  obtain ⟨i, hi, hopcode, hx⟩ := hwrite
  obtain ⟨y, hsecond, -⟩ := (h.regular id (by simp [hlist]) i hi).write?_eq hopcode hx
  obtain ⟨k, hk, hkopcode, hkx⟩ := haccess
  obtain ⟨z, hfirst, -⟩ := (h.regular q (by simp [hlist, hq]) k hk).write?_eq hkopcode hkx
  have hmirrored : Mirrored E s width b start (id :: todo)
      (fun x' p => known.lookup x' = some p ∧ x' ≠ x) r' :=
    h.overwritten hscanned.intact hlookup hk hfirst hi hsecond herased
      fun x' p hp => ⟨hp.1, hother x' p hp.1 hp.2⟩
  have hi' : r'.code? id = some i := by rw [herased.code, if_neg hne, hi]
  exact hmirrored.learn fun x' w hx' => undisturbed_of_write hi' hsecond hx'

theorem mirrored_forward {p : Producer} {y : Operand} {t : Ty} {r₁ : Routine} (hread : r.Reads id x)
    (hlookup : known.lookup x = some p) (hsome : r.content? p = some (y, t)) (hr₁ : r₁.Intact)
    (hreplaced : (y = .insn id ∧ r₁ = r) ∨ (y ≠ .insn id ∧ Replaced r r₁ (.insn id) y))
    : Mirrored E s width b start todo (known.lookup · = some ·)
        (r₁.modifyInsn id ({ · with opcode := .nop })) := by
  obtain ⟨i, hi, hopcode, hx⟩ := hread
  obtain ⟨y', t', hsome', -, -, hy⟩ := content hscanned h hlookup
  rw [hsome] at hsome'
  cases hsome'
  rcases hreplaced with ⟨hself, -⟩ | ⟨hself, hreplaced⟩
  . -- the content of a register does not come from a later read
    obtain ⟨ρ, hranked⟩ := h.ordered
    exact absurd (hy.ranked ρ hranked id hself) (Nat.lt_irrefl _)
  . obtain ⟨front, hlist, -⟩ := h.retains
    have hread := ((h.regular id (by simp [hlist]) i hi).readRegister?_eq hopcode hx).1
    have hi₁ : r₁.code? id = some (i.substitute (.insn id) y) := by
      rw [hreplaced.code, hi]
      rfl
    have hfree : ¬ r₁.Used id := fun ⟨j, hj⟩ => hreplaced.not_refers hself j hj
    have hmirrored := (h.replaced hscanned.intact hi hread hy hreplaced).retired hr₁ hi₁ hopcode hfree
    apply hmirrored.advance
    intro x' p' hp'
    refine Or.inr ⟨hp', ?_⟩
    have hnop : (r₁.modifyInsn id ({ · with opcode := .nop })).code? id =
        some { i.substitute (.insn id) y with opcode := .nop } := by
      rw [code?_retired, if_pos rfl, hi₁]
      rfl
    exact undisturbed_of_opcode hnop rfl (by simp) (by simp)

theorem mirrored_cast {p : Producer} {y : Operand} {t t' : Ty} {c : InsnId} {r₁ : Routine}
    (hstart : start.Intact) (hsize : start.insns.size ≤ r.insns.size) (hread : r.Reads id x)
    (hlookup : known.lookup x = some p) (hsome : r.content? p = some (y, t)) (hr₁ : r₁.Intact)
    (hinserted : Inserted r r₁ id (.bitcast t t' y) c)
    (hreplaced : Replaced r₁ r' (.insn id) (.insn c)) (hty : ∃ i, r.code? id = some i ∧ i.ty = t')
    : Mirrored E s width b start todo (known.lookup · = some ·) r' := by
  obtain ⟨i, hi, hopcode, hx⟩ := hread
  obtain ⟨y', t', hsome', ht, hwidth, hy⟩ := content hscanned h hlookup
  rw [hsome] at hsome'
  cases hsome'
  obtain ⟨front, hlist, -⟩ := h.retains
  have hregular := h.regular id (by simp [hlist]) i hi
  obtain ⟨hread, ht', hwidth'⟩ := hregular.readRegister?_eq hopcode hx
  obtain ⟨i', hi', rfl⟩ := hty
  rw [hi] at hi'
  cases hi'
  have hne : id ≠ c := hinserted.ne hi
  obtain ⟨ip, hcode⟩ := hinserted.code
  have hi₁ : r₁.code? id = some i := by rw [hcode, if_neg hne, hi]
  have hc := Mirrored.content_inserted hscanned.intact hr₁ hlist hy hinserted ht ht'
    (hwidth.trans hwidth'.symm)
  have hmirrored := (h.inserted hscanned.intact hstart hsize hy hinserted).replaced hr₁ hi₁ hread hc
    hreplaced
  have hi₂ : r'.code? id = some (i.substitute (.insn id) (.insn c)) := by
    rw [hreplaced.code, hi₁]
    rfl
  have hread₂ : (i.substitute (.insn id) (.insn c)).readRegister? = some x := by
    rw [hregular.readRegister?_substitute, hread]
  apply hmirrored.advance
  intro x' p' hp'
  refine Or.inr ⟨hp', undisturbed_of_read hi₂ hread₂ ?_⟩
  rintro - - ⟨j, hj⟩
  exact hreplaced.not_refers (by simpa using hne.symm) j hj

end Visits

theorem mirrored (h : Forwards r known id known' n r') (hstart : start.Intact)
    (hsize : start.insns.size ≤ r.insns.size) (hscanned : Scanned b known (id :: todo) r)
    (hmirrored : Mirrored E s width b start (id :: todo) (known.lookup · = some ·) r)
    : Mirrored E s width b start todo (known'.lookup · = some ·) r' := by
  have hregular : ∀ i, r.code? id = some i → i.Regular width := by
    obtain ⟨front, hlist, -⟩ := hmirrored.retains
    exact hmirrored.regular id (by simp [hlist])
  cases h with
  | skip hi hother => exact hmirrored.skip hi hother
  | learn hread hnone =>
    obtain ⟨i, hi, hopcode, hx⟩ := hread
    have hread := ((hregular i hi).readRegister?_eq hopcode hx).1
    exact (hmirrored.mono fun x p hp => hp.1).learn
      fun x' w hne => undisturbed_of_read hi hread fun heq => absurd heq hne
  | write hwrite hother =>
    obtain ⟨i, hi, hopcode, hx⟩ := hwrite
    obtain ⟨y, hwrite, -⟩ := (hregular i hi).write?_eq hopcode hx
    exact (hmirrored.mono fun x p hp => hp.1).learn
      fun x' w hne => undisturbed_of_write hi hwrite hne
  | overwrite hwrite hlookup herased =>
    exact mirrored_overwrite hscanned hmirrored hwrite hlookup herased
  | blank hread hlookup hnone =>
    obtain ⟨y, t, hsome, -⟩ := content hscanned hmirrored hlookup
    rw [hnone] at hsome
    cases hsome
  | forward hread hlookup hsome hr₁ h =>
    exact mirrored_forward hscanned hmirrored hread hlookup hsome hr₁ h
  | cast hread hlookup hsome hr₁ hinserted h hty =>
    exact mirrored_cast hscanned hmirrored hstart hsize hread hlookup hsome hr₁ hinserted h hty

end Forwards

section Uniformity

def Instruction.access? (i : Instruction) : Option (Register × Ty) :=
  if i.opcode = .readReg ∨ i.opcode = .writeReg then
    (i.operands[0]?.bind Operand.reg?).map (·, i.template 0)
  else
    none

structure Routine.Uniform (r : Routine) (b : BlockId) : Prop where
  widths : ∀ id ∈ r.insnsOf b, ∀ j ∈ r.insnsOf b, ∀ a ∈ (r.code? id).bind Instruction.access?,
    ∀ a' ∈ (r.code? j).bind Instruction.access?, a.1 = a'.1 →
      a.2.isSymbolic = false ∧ a.2.bitWidth = a'.2.bitWidth
  addresses : ∀ id ∈ r.insnsOf b, ∀ i ∈ r.code? id, ∀ y ∈ i.operands, y.registers = []

variable {r : Routine} {b : BlockId} {id : InsnId} {i : Insn} {x : Register} {y : Operand}

theorem Instruction.access?_eq {k : Instruction} (hopcode : k.opcode = .readReg ∨ k.opcode = .writeReg)
    (hx : k.operands[0]? = some (.reg x)) : k.access? = some (x, k.template 0) := by
  unfold access?
  rw [if_pos hopcode, hx]
  rfl

namespace Routine

theorem Fits.exists_reg (h : r.Fits i) (hy : i.operand? 0 = some y)
    (hslot : i.code.slotType? 0 = some .reg) (hconstants : 0 ∈ i.opcode.signature.constants)
    : ∃ x, y = .reg x := by
  have htype := h.types 0 y .reg hy hslot
  cases y with
  | const c => cases c <;> cases htype
  | reg x => exact ⟨x, rfl⟩
  | mem m => cases htype
  | value v => exact absurd hy (h.constants 0 v hconstants)

theorem Fits.operands_of_read (h : r.Fits i) (hopcode : i.opcode = .readReg)
    : ∃ x, i.operands = [.reg x] := by
  have hlength : i.operands.length = 1 := by
    have := h.exact (by rw [hopcode]; rfl)
    rw [hopcode] at this
    simpa [Insn.operands, Opcode.signature] using this
  obtain ⟨y, hy⟩ := List.length_eq_one_iff.mp hlength
  obtain ⟨x, rfl⟩ := h.exists_reg (y := y) (by rw [Insn.operand?_eq, hy]; rfl)
    (by rw [slotType?, show i.code.opcode = .readReg from hopcode]; rfl) (by rw [hopcode]; decide)
  exact ⟨x, hy⟩

theorem Fits.operands_of_write (h : r.Fits i) (hopcode : i.opcode = .writeReg)
    : ∃ x y, i.operands = [.reg x, y] := by
  have hlength : i.operands.length = 2 := by
    have := h.exact (by rw [hopcode]; rfl)
    rw [hopcode] at this
    simpa [Insn.operands, Opcode.signature] using this
  obtain ⟨z, y, hy⟩ := List.length_eq_two.mp hlength
  obtain ⟨x, rfl⟩ := h.exists_reg (y := z) (by rw [Insn.operand?_eq, hy]; rfl)
    (by rw [slotType?, show i.code.opcode = .writeReg from hopcode]; rfl) (by rw [hopcode]; decide)
  exact ⟨x, y, hy⟩

theorem Uniform.exists_width (h : r.Uniform b)
    : ∃ width : Register → Nat, ∀ id ∈ r.insnsOf b, ∀ x t,
        (r.code? id).bind Instruction.access? = some (x, t) →
          t.isSymbolic = false ∧ t.bitWidth = width x := by
  have hwidth : ∀ x, ∃ n, ∀ id ∈ r.insnsOf b, ∀ t,
      (r.code? id).bind Instruction.access? = some (x, t) → t.bitWidth = n := by
    intro x
    by_cases hx : ∃ j ∈ r.insnsOf b, ∃ t, (r.code? j).bind Instruction.access? = some (x, t)
    . obtain ⟨j, hj, t', ht'⟩ := hx
      exact ⟨t'.bitWidth, fun id hid t ht => (h.widths id hid j hj _ ht _ ht' rfl).2⟩
    . exact ⟨0, fun id hid t ht => absurd ⟨id, hid, t, ht⟩ hx⟩
  choose width hwidth using hwidth
  exact ⟨width, fun id hid x t ht => ⟨(h.widths id hid id hid _ ht _ ht rfl).1, hwidth x id hid t ht⟩⟩

theorem Uniform.exists_regularIn (h : r.Uniform b) (hcheck : r.check = .ok ())
    : ∃ width, r.RegularIn width b := by
  obtain ⟨width, hwidth⟩ := h.exists_width
  refine ⟨width, ?_⟩
  intro id hid k hk
  obtain ⟨i, hi, rfl⟩ := exists_insn?_of_code? hk
  have hfits := fits_of_check hcheck hi
  constructor
  . intro hopcode
    obtain ⟨x, hx⟩ := hfits.operands_of_read hopcode
    refine ⟨x, hx, hwidth id hid x _ ?_⟩
    rw [hk]
    exact Instruction.access?_eq (Or.inl hopcode) (by rw [show i.code.operands = _ from hx]; rfl)
  . intro hopcode
    obtain ⟨x, y, hx⟩ := hfits.operands_of_write hopcode
    refine ⟨x, y, hx, hwidth id hid x _ ?_⟩
    rw [hk]
    exact Instruction.access?_eq (Or.inr hopcode) (by rw [show i.code.operands = _ from hx]; rfl)
  . exact h.addresses id hid i.code hk

end Routine

end Uniformity

namespace Interpretation

def sums : Interpretation Nat where
  literal c := c.rawBits?.getD 0
  register := Register.uid
  label := BlockId.toNat
  address m f := (m.registers.map f).foldl (· + ·) m.displacement.toUInt64.toNat
  address_congr := by
    intro m f g h
    rw [List.map_congr_left h]
  result _ _ ws := ws.foldl (· + ·) 0
  result_bitcast := by
    intro t t' w _ _ _
    simp
  given := InsnId.toNat
  touched id ws f x := ws.foldl (· + ·) (f x + id.toNat)

variable {W : Type} {E : Interpretation W} {s : Stage W} {width : Register → Nat} {b : BlockId}
  {r r' : Routine}

theorem simulates_of_discards (h : Relation.ReflTransGen (Discards b) r r')
    (hregular : r.RegularIn width b)
    : E.Simulates s b r r' ∧ r'.RegularIn width b ∧ ∀ j ∈ r'.insnsOf b, j ∈ r.insnsOf b := by
  induction h with
  | refl => exact ⟨.refl r, hregular, fun j hj => hj⟩
  | tail _ hlast ih =>
    obtain ⟨hsimulates, hregular', hsub⟩ := ih
    obtain ⟨id, hr, hspent, herased⟩ := hlast
    have hsub' := herased.insnsOf hr.arranged b
    refine ⟨hsimulates.trans (simulates_discarded hr hregular' hspent herased) ?_,
      hregular'.erased hr herased, ?_⟩
    . intro j _ hj
      rw [hsub'] at hj
      exact (List.mem_filter.mp hj).1
    . intro j hj
      rw [hsub'] at hj
      exact hsub j (List.mem_filter.mp hj).1

end Interpretation

namespace Edit

theorem forwardRegisters_simulates (actions : List Action) {b : BlockId} (debug : Bool) {n : Nat}
    {r' : Routine}
    (hordered : (after actions).DefOrdered) (hcheck : (after actions).check = .ok ())
    (huniform : (after actions).Uniform b) (hrun : forwardRegisters b debug (after actions) = .ok n r')
    (hsmall : r'.Small) {W : Type} (E : Interpretation W) (s : Stage W)
    : E.Simulates s b (after actions) r' := by
  have hr : (after actions).Intact := by
    have hgrows := (covers_keeps.forwardRegisters b debug (after actions)).grows
    rw [left_of_ok hrun] at hgrows
    exact intact_after actions (hgrows.small hsmall)
  obtain ⟨width, hregular⟩ := huniform.exists_regularIn hcheck
  rw [forwardRegisters_eq] at hrun
  obtain ⟨⟨known, m⟩, r₁, hsweep, hcomplete⟩ := of_bind_ok hrun
  have hsmall₁ : r₁.Small := by
    have := keeps_complete b m debug r₁
    rw [left_of_ok hcomplete] at this
    exact this.grows.small hsmall
  have hends := visitRegister_ends
    (I := fun todo known r => Mirrored E s width b (after actions) todo (known.1.lookup · = some ·) r ∧
      (after actions).insns.size ≤ r.insns.size)
    (fun hscanned ⟨hmirrored, hsize⟩ hforwards hgrows =>
      ⟨hforwards.mirrored hr hsize hscanned hmirrored, Nat.le_trans hsize hgrows.insns⟩)
    hr (block?_of_sweepWith hsweep)
    ⟨⟨.refl _, hregular, hordered, [], rfl, by simp⟩, Nat.le_refl _⟩
    (by rwa [left_of_ok hsweep])
  rw [hsweep] at hends
  cases hends with
  | done h =>
    obtain ⟨hscanned, hmirrored, -⟩ := h
    rcases complete_cases hscanned.intact hcomplete hsmall with ⟨-, -, rfl⟩ | ⟨-, -, hcleans⟩
    . exact hmirrored.simulates
    . obtain ⟨hsimulates, -, hsub⟩ := Interpretation.simulates_of_discards (E := E) (s := s)
        hcleans.discards hmirrored.regular
      exact hmirrored.simulates.trans hsimulates fun j _ hj => hsub j hj

def mixedReads : List Action :=
  [.addBlock,
    .pushBack (.ofNat 0) (.writeReg (.ofNat 0 1) (.const (.i64 1)) .i64),
    .pushBack (.ofNat 0) (.readReg .i64 (.ofNat 0 1)),
    .pushBack (.ofNat 0) (.writeReg (.ofNat 1 1) (.insn (.ofNat 1)) .i64),
    .pushBack (.ofNat 0) (.readReg .f64 (.ofNat 1 1)),
    .pushBack (.ofNat 0) (.writeReg (.ofNat 2 1) (.insn (.ofNat 3)) .f64),
    .pushBack (.ofNat 0) (.writeReg (.ofNat 0 1) (.const (.i64 2)) .i64),
    .pushBack (.ofNat 0) (.xcall (.const (.pointer 4096))),
    .pushBack (.ofNat 0) (.readReg .i64 (.ofNat 0 1)),
    .pushBack (.ofNat 0) (.readReg .i64 (.ofNat 0 1)),
    .pushBack (.ofNat 0) (.writeReg (.ofNat 3 1) (.insn (.ofNat 8)) .i64)]

theorem forwardRegisters_simulates_mixedReads
    : (after mixedReads).DefOrdered ∧ (after mixedReads).check = .ok () ∧
        (after mixedReads).Uniform (.ofNat 0) ∧
        (left (forwardRegisters (.ofNat 0) true) (after mixedReads)).insnsOf (.ofNat 0) =
          [.ofNat 2, .ofNat 10, .ofNat 4, .ofNat 5, .ofNat 6, .ofNat 7, .ofNat 9] ∧
        Interpretation.sums.Simulates ⟨Register.uid, InsnId.toNat⟩ (.ofNat 0) (after mixedReads)
          (left (forwardRegisters (.ofNat 0) true) (after mixedReads)) := by
  have hordered : (after mixedReads).DefOrdered :=
    defOrdered_of_handles (by decide +kernel) (by decide +kernel)
  have hcheck : (after mixedReads).check = .ok () := by decide +kernel
  have huniform : (after mixedReads).Uniform (.ofNat 0) := by
    constructor
    . decide +kernel
    . decide +kernel
  have hrun : EStateM.run' (forwardRegisters (.ofNat 0) true) (after mixedReads) = some 10 := by
    decide +kernel
  have hsmall : (left (forwardRegisters (.ofNat 0) true) (after mixedReads)).Small := by
    constructor
    . decide +kernel
    . decide +kernel
    . decide +kernel
  exact ⟨hordered, hcheck, huniform, by decide +kernel,
    forwardRegisters_simulates mixedReads true hordered hcheck huniform (run_of_run' hrun) hsmall _ _⟩

end Edit

end MachineIR
