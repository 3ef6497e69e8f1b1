import Mathlib.Data.List.Infix
import Unos.Lc3.Refinement

namespace Unos.Lc3

open Unos.Turns Unos.Lc3Isa

def IsDevice (i : Fin vmAddrMax) : Prop :=
  i.val = 0xFE00 ∨ i.val = 0xFE02 ∨ i.val = 0xFE04 ∨ i.val = 0xFE06

instance (i : Fin vmAddrMax) : Decidable (IsDevice i) := inferInstanceAs (Decidable (_ ∨ _))

def shadow (f mem : Fin vmAddrMax → Word) (i : Fin vmAddrMax) : Word :=
  if IsDevice i then f i else mem i

def Vm.shadow (f : Fin vmAddrMax → Word) (vm : Vm) : Vm := { vm with mem := Lc3.shadow f vm.mem }

def Devices.shadow (f : Fin vmAddrMax → Word) (d : Devices) : Devices :=
  { d with mem := Lc3.shadow f d.mem }

variable {a : Word} {i : Fin vmAddrMax} {f : Fin vmAddrMax → Word}

theorem site_cell (h : site a = .cell i) : i.val = a.toNat ∧ ¬ IsDevice i := by
  have hne : ∀ b : Word, a ≠ b → a.toNat ≠ b.toNat := fun b hab heq =>
    hab (BitVec.eq_of_toNat_eq heq)
  rw [site] at h
  split_ifs at h with hkbsr hkbdr hdsr hddr hlt
  obtain rfl := Site.cell.inj h
  refine ⟨rfl, ?_⟩
  rintro (hi | hi | hi | hi)
  · exact hne _ hkbsr hi
  · exact hne _ hkbdr hi
  · exact hne _ hdsr hi
  · exact hne _ hddr hi

theorem shadow_of_not (mem : Fin vmAddrMax → Word) (h : ¬ IsDevice i) :
    shadow f mem i = mem i := if_neg h

theorem shadow_update (mem : Fin vmAddrMax → Word) (h : ¬ IsDevice i) (v : Word) :
    shadow f (Function.update mem i v) = Function.update (shadow f mem) i v := by
  funext j
  by_cases hj : j = i
  · subst hj
    rw [shadow_of_not _ h, Function.update_self, Function.update_self]
  · simp only [shadow, Function.update_of_ne hj]

theorem busMap_shadow (f : Fin vmAddrMax → Word) : BusMap devices devices (Devices.shadow f) where
  read d a := by
    simp only [devices, Devices.read]
    cases hsite : site a with
    | keyboardData =>
      by_cases hready : d.ready 0 = true
      · simp only [Devices.shadow, hready, if_true]
        rfl
      · simp only [Devices.shadow, hready]
        rfl
    | cell i =>
      simp only [Devices.shadow, shadow_of_not d.mem (site_cell hsite).2]
      rfl
    | _ => rfl
  write d a v := by
    simp only [devices, Devices.write]
    cases hsite : site a with
    | cell i =>
      simp only [Devices.shadow, Option.map_some, shadow_update d.mem (site_cell hsite).2]
    | _ => rfl
  getc _ := rfl

/-- The devices after some accesses: what is left to be typed, the answers that are left, and what
was displayed. -/
structure Later (d d' : Devices) : Prop where
  stdin : d'.stdin <:+ d.stdin
  ready : ∃ k, ∀ n, d'.ready n = d.ready (n + k)
  stdout : d.stdout <+: d'.stdout

theorem Later.refl (d : Devices) : Later d d :=
  ⟨List.suffix_refl _, ⟨0, fun _ => rfl⟩, List.prefix_refl _⟩

variable {d d' : Devices}

theorem Later.polled (h : Later d d') : Later d d'.polled := by
  obtain ⟨k, hk⟩ := h.ready
  refine ⟨h.stdin, ⟨k + 1, fun n => ?_⟩, h.stdout⟩
  rw [Devices.polled, hk, Nat.add_right_comm, Nat.add_assoc]

theorem Later.next (h : Later d d') : Later d d'.next.2 := by
  refine ⟨List.IsSuffix.trans ?_ h.stdin, h.ready, h.stdout⟩
  rw [Devices.next]
  cases d'.stdin with
  | nil => exact List.suffix_refl _
  | cons c cs => exact List.suffix_cons c cs

theorem busKeeps_later (d : Devices) : BusKeeps devices (Later d) where
  read d' a v b hd hread := by
    simp only [devices, Devices.read] at hread
    cases hsite : site a with
    | keyboardStatus =>
      rw [hsite] at hread
      cases hread
      exact hd.polled
    | keyboardData =>
      rw [hsite] at hread
      dsimp only at hread
      by_cases hready : d'.ready 0 = true
      · rw [if_pos hready] at hread
        cases hread
        exact hd.polled.next
      · rw [if_neg hready] at hread
        cases hread
        exact hd.polled
    | outside =>
      rw [hsite] at hread
      cases hread
    | _ =>
      rw [hsite] at hread
      cases hread
      exact hd
  write d' a v b hd hwrite := by
    simp only [devices, Devices.write] at hwrite
    cases hsite : site a with
    | displayData =>
      rw [hsite] at hwrite
      cases hwrite
      exact ⟨hd.stdin, hd.ready, hd.stdout.trans (List.prefix_append _ _)⟩
    | outside =>
      rw [hsite] at hwrite
      cases hwrite
    | _ =>
      rw [hsite] at hwrite
      cases hwrite
      exact ⟨hd.stdin, hd.ready, hd.stdout⟩
  getc d' hd := hd.next

/-- With other values in the cells behind the device registers, a run does the same and leaves them
as they are. What is typed is taken in order, and what was displayed stays. -/
theorem vmRun_devices (c : Cpu Devices) (n : ℕ) :
    (∀ f, vmRun n ((toVm c).shadow f) = (vmRun n (toVm c)).map id (Vm.shadow f)) ∧
      (vmRun n (toVm c)).All fun vm => vm.stdin <:+ c.bus.stdin ∧
        (∃ k, ∀ m, vm.ready m = c.bus.ready (m + k)) ∧ c.bus.stdout <+: vm.stdout := by
  have hrun := vmRun_eq n
  constructor
  · intro f
    have hshadow : (toVm c).shadow f = toVm (c.mapBus (Devices.shadow f)) := rfl
    rw [hshadow, hrun, hrun, runTurns_map (turn_map (busMap_shadow f))]
    cases runTurns (turn devices) n c <;> rfl
  · have hkeep := runTurns_all (turn_keeps (busKeeps_later c.bus)) n (Later.refl c.bus)
    rw [hrun]
    generalize runTurns (turn devices) n c = t at hkeep
    cases t with
    | goOn c' => exact ⟨hkeep.stdin, hkeep.ready, hkeep.stdout⟩
    | stop r c' => exact ⟨hkeep.stdin, hkeep.ready, hkeep.stdout⟩
    | fault => trivial

end Unos.Lc3
