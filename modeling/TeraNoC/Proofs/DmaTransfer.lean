import Mathlib.Data.List.Perm.Subperm
import TeraNoC.Dma.Transfer
import TeraNoC.Proofs.BackendDrains
import TeraNoC.Proofs.L2Bursts

/-!
# A transfer copies its bytes

From the frontend's request to the bytes on the bus: the split midend gives the bytes of a transfer
to its sub-requests, the distributed midends give those of a sub-request to the backends, and a
backend writes those of its requests.
-/

namespace TeraNoC.Dma

open TeraNoC.Lib

/-! ## Joining lists -/

section Joins

variable {α β γ : Type}

theorem flatMap_swap (l₁ : List α) (l₂ : List β) (f : α → β → List γ) :
    (l₁.flatMap fun a => l₂.flatMap fun b => f a b).Perm
      (l₂.flatMap fun b => l₁.flatMap fun a => f a b) := by
  induction l₁ with
  | nil =>
      have hnil : (l₂.flatMap fun b => ([] : List α).flatMap fun a => f a b) = [] :=
        List.flatMap_eq_nil_iff.2 fun _ _ => rfl
      rw [hnil]
      exact List.Perm.refl _
  | cons a l₁ ih =>
      rw [List.flatMap_cons]
      refine (List.Perm.append_left _ ih).trans ?_
      exact List.flatMap_append_perm l₂ (fun b => f a b) fun b => l₁.flatMap fun a => f a b

theorem flatMap_filterMap (l : List α) (f : α → Option β) (g : β → List γ) :
    (l.filterMap f).flatMap g = l.flatMap fun a => (f a).elim [] g := by
  induction l with
  | nil => rfl
  | cons a l ih =>
      rw [List.filterMap_cons, List.flatMap_cons]
      cases f a with
      | none => exact ih
      | some b => rw [List.flatMap_cons, ih]; rfl

end Joins

/-! ## The bytes of a request -/

section Bytes

variable {mem : Nat → DataByte} {req : DmaReq}

theorem asked_const (mem : Nat → DataByte) (q : Nat) (reqs : List DmaReq) :
    BackendRun.asked (fun _ => mem) q reqs = reqs.flatMap (copies mem) := by
  induction reqs generalizing q with
  | nil => rfl
  | cons req reqs ih =>
      rw [BackendRun.asked, ih, List.flatMap_cons]
      rfl

/-- A byte of a request, as a write. -/
def copyOf (mem : Nat → DataByte) (b : BitVec 32 × BitVec 32) : Nat × DataByte :=
  (b.2.toNat, mem b.1.toNat)

theorem copies_eq (hsrc : req.NoWrap .rd) (hdst : req.NoWrap .wr) :
    copies mem req = req.bytes.map (copyOf mem) := by
  rw [copies, DmaReq.bytes, span, List.map_map]
  refine List.map_congr_left fun k hk => ?_
  rw [List.mem_range] at hk
  have hs : req.src.toNat + req.numBytes.toNat ≤ 2 ^ 32 := hsrc
  have hd : req.dst.toNat + req.numBytes.toNat ≤ 2 ^ 32 := hdst
  have hadd : ∀ a : BitVec 32, a.toNat + k < 2 ^ 32 →
      (a + BitVec.ofNat 32 (0 + k)).toNat = a.toNat + k := by
    intro a ha
    rw [Nat.zero_add, BitVec.toNat_add, BitVec.toNat_ofNat, Nat.add_mod_mod, Nat.mod_eq_of_lt ha]
  rw [Function.comp_apply, DmaReq.byte, copyOf, hadd _ (by omega), hadd _ (by omega)]

end Bytes

namespace L2DmaConfig

variable {c : L2DmaConfig} {req : DmaReq}

theorem backend_valid (c : L2DmaConfig) : c.backend.Valid where
  width_pow := c.shaper.width_pow
  width_le := c.shaper.width_le
  two_le_depth := by
    change 2 ≤ 8
    omega

/-! ## The midends -/

/-- What the split midend hands over stays in a window of the distributed midends. -/
theorem Transfer.window_of_fits (h : c.Transfer req) {sub : DmaReq} {off len : Nat}
    (hpart : SplitRun.SubPart c.split req sub off len) (hfits : c.split.Fits req sub) :
    c.sys.l1Offset sub + sub.numBytes.toNat ≤ c.sys.dmaRegionWidth * c.sys.noMstPorts := by
  have hin := hpart.inside
  have hne := hpart.nonempty
  have hside : sub.l1Addr c.region = req.sideAddr c.region sub := by
    have hsrc : c.region.contains sub.src = c.region.contains req.src := by
      rw [hpart.eq]
      exact h.oneSided off (by omega)
    rw [DmaReq.l1Addr, DmaReq.sideAddr, hsrc]
  rw [SplitConfig.Fits] at hfits
  rw [DistParams.l1Offset, ← c.splitWidth_eq]
  change (sub.l1Addr c.region).toNat % _ + _ ≤ _
  rw [hside]
  exact hfits

/-- The two levels of distributed midends give every byte of a sub-request to one backend. -/
theorem flatMap_backendReq {sub : DmaReq} (hn : 1 ≤ sub.numBytes.toNat)
    (hwin : c.sys.l1Offset sub + sub.numBytes.toNat ≤ c.sys.dmaRegionWidth * c.sys.noMstPorts)
    (hside : sub.OneSided c.region) :
    ((List.range c.dma.numGroups).flatMap fun g =>
      (List.range c.dma.numDmasPerGroup).flatMap fun d =>
        (backendReq c.sys.toDistParams c.grp.toDistParams sub g d).elim [] DmaReq.bytes) =
      sub.bytes := by
  rw [← DistConfig.flatMap_portOut hwin hn]
  refine List.flatMap_congr fun g hg => ?_
  have hg' : g < c.sys.noMstPorts := List.mem_range.1 hg
  simp only [backendReq]
  cases hv : c.sys.portValid sub g with
  | false =>
      rw [DistParams.portOut, hv]
      simp
  | true =>
      have hslice := DistConfig.groupSlice c.region_eq c.nested hn
        (DistConfig.under_of_inside hwin) hside hg' hv
      rw [DistParams.portOut, hv]
      exact DistConfig.flatMap_portOut hslice.inside hslice.nonempty

section Transfers

variable (h : c.Transfer req)
include h

/-- What the backends are given together, is what the split midend has handed over. -/
theorem Transfer.perm_backendReqs {down : Nat → Down} {t : Nat}
    (hfits : ∀ sub ∈ (SplitRun.after c.split.toSplitParams [req] down t).handed,
      c.split.Fits req sub) :
    ((List.range c.dma.numGroups).flatMap fun g =>
      (List.range c.dma.numDmasPerGroup).flatMap fun d =>
        (c.backendReqs req down t g d).flatMap DmaReq.bytes).Perm
      ((SplitRun.after c.split.toSplitParams [req] down t).handed.flatMap DmaReq.bytes) := by
  have hjoin : ∀ g d, (c.backendReqs req down t g d).flatMap DmaReq.bytes =
      (SplitRun.after c.split.toSplitParams [req] down t).handed.flatMap fun sub =>
        (backendReq c.sys.toDistParams c.grp.toDistParams sub g d).elim [] DmaReq.bytes :=
    fun g d => flatMap_filterMap _ _ _
  simp only [hjoin]
  refine (List.Perm.flatMap_left _ fun g _ => flatMap_swap _ _ _).trans ?_
  refine (flatMap_swap _ _ _).trans ?_
  rw [List.flatMap_congr fun sub hsub => ?_]
  obtain ⟨off, len, hpart⟩ := SplitRun.subPart_after c.split h.nonempty down t sub hsub
  have hin := hpart.inside
  have hnum : sub.numBytes.toNat = len := by
    rw [hpart.eq]
    exact req.numBytes_part _ (by have := req.numBytes.isLt; omega)
  refine flatMap_backendReq ?_ (h.window_of_fits hpart (hfits sub hsub)) ?_
  · rw [hnum]
    exact hpart.nonempty
  · rw [hpart.eq]
    exact DmaReq.oneSided_part h.oneSided hin

end Transfers

section Writes

variable (s : FrontendState) (h : c.Transfer s.burstReq) {down : Nat → Down}
  (F : BackendCells c.backend) {lead : Nat} (mem : Nat → DataByte)
  (input : Nat → Nat → Nat → BackendIn)
include h

theorem Transfer.copies_backendReqs {t g d : Nat} (hg : g < c.dma.numGroups)
    (hd : d < c.dma.numDmasPerGroup) :
    BackendRun.asked (fun _ => mem) 0 (c.backendReqs s.burstReq down t g d) =
      ((c.backendReqs s.burstReq down t g d).flatMap DmaReq.bytes).map (copyOf mem) := by
  have hacc : ReshapeRun.Accepted (c.backendReqs s.burstReq down t g d) :=
    h.accepted (decoupled_burstReq s) hg hd
  rw [asked_const, List.map_flatMap]
  exact List.flatMap_congr fun r hr => copies_eq (hacc.noWrap r hr .rd) (hacc.noWrap r hr .wr)

theorem Transfer.perm_asked {t : Nat}
    (hfits : ∀ sub ∈ (SplitRun.after c.split.toSplitParams [s.burstReq] down t).handed,
      c.split.Fits s.burstReq sub) :
    ((List.range c.dma.numGroups).flatMap fun g =>
      (List.range c.dma.numDmasPerGroup).flatMap fun d =>
        BackendRun.asked (fun _ => mem) 0 (c.backendReqs s.burstReq down t g d)).Perm
      (((SplitRun.after c.split.toSplitParams [s.burstReq] down t).handed.flatMap
        DmaReq.bytes).map (copyOf mem)) := by
  refine List.Perm.trans ?_ ((h.perm_backendReqs hfits).map _)
  rw [List.map_flatMap]
  refine List.Perm.flatMap_left _ fun g hg => ?_
  rw [List.map_flatMap]
  refine List.Perm.flatMap_left _ fun d hd => ?_
  rw [h.copies_backendReqs s mem (List.mem_range.1 hg) (List.mem_range.1 hd)]

/-- The backends of a cluster write the bytes of a transfer between L1 and L2, each to its place,
once, and nothing else, whatever the alignment of the two sides and the timing of the midends, the
backends and the memories; and they get done with it if all of these keep going. The first cycle
must not be the one `split_midend` misses. -/
theorem transfer_copied
    (hfirst : s.burstReq.numBytes.toNat ≤ c.split.firstBytes s.burstReq ∨
      (s.burstReq.l1Addr c.region).toNat % c.split.dmaRegionWidth = 0 ∨ (down 0).ready = true)
    (hlead : lead ≤ 6) :
    (∀ t u, (c.writes F lead mem s.burstReq down input t u).Subperm (copies mem s.burstReq)) ∧
    ((∀ t, ∃ u, t ≤ u ∧ (down u).ready = true) →
      (∀ g d k t, ∃ u, t ≤ u ∧ (input g d u).gives k = true) →
      ∃ T U, ∀ u, U ≤ u →
        (c.writes F lead mem s.burstReq down input T u).Perm (copies mem s.burstReq)) := by
  have hdepth : lead + 2 ≤ c.backend.axReqFifoDepth := by
    change lead + 2 ≤ 8
    omega
  have hacc : ∀ t, ∀ g < c.dma.numGroups, ∀ d < c.dma.numDmasPerGroup,
      ReshapeRun.Accepted (c.backendReqs s.burstReq down t g d) := fun t g hg d hd =>
    h.accepted (decoupled_burstReq s) hg hd
  have hperm : ∀ t, _ := fun t => h.perm_asked s mem (SplitRun.fits_after c.split hfirst t)
  have hcopies : copies mem s.burstReq = s.burstReq.bytes.map (copyOf mem) :=
    copies_eq (h.noWrap .rd) (h.noWrap .wr)
  rw [hcopies]
  constructor
  · intro t u
    have hsub : (c.writes F lead mem s.burstReq down input t u).Sublist
        ((List.range c.dma.numGroups).flatMap fun g =>
          (List.range c.dma.numDmasPerGroup).flatMap fun d =>
            BackendRun.asked (fun _ => mem) 0 (c.backendReqs s.burstReq down t g d)) := by
      refine List.Sublist.flatMap_right _ fun g hg => List.Sublist.flatMap_right _ fun d hd => ?_
      exact (BackendRun.written_isPrefix c.backend_valid
        (hacc t g (List.mem_range.1 hg) d (List.mem_range.1 hd)) hdepth (input g d) u).sublist
    have hpre := (SplitRun.progress_after c.split s.burstReq down t).isPrefix
    exact (hsub.subperm.trans (hperm t).subperm).trans (hpre.map _).sublist.subperm
  · intro hdown hinput
    obtain ⟨T, hT⟩ := SplitRun.complete_of_fair c.split h.nonempty hdown
    have hdone : ∀ g < c.dma.numGroups, ∃ U, ∀ u, U ≤ u → ∀ d < c.dma.numDmasPerGroup,
        (c.backendRun F lead mem s.burstReq down input T u g d).written =
          BackendRun.asked (fun _ => mem) 0 (c.backendReqs s.burstReq down T g d) := by
      intro g hg
      have hdrain : ∀ d < c.dma.numDmasPerGroup, ∃ U, ∀ u, U ≤ u →
          (c.backendRun F lead mem s.burstReq down input T u g d).written =
            BackendRun.asked (fun _ => mem) 0 (c.backendReqs s.burstReq down T g d) := by
        intro d hd
        obtain ⟨U, e, hat, hload⟩ := BackendRun.exists_drained c.backend_valid (hacc T g hg d hd)
          hdepth (by change 2 ≤ 4; omega) (input g d) (hinput g d)
        exact ⟨U, fun u hu => hat.written_all c.backend_valid (hacc T g hg d hd) hdepth hload hu⟩
      obtain ⟨U, hU⟩ := eventually_forall_lt c.dma.numDmasPerGroup hdrain
      exact ⟨U, fun u hu d hd => hU d hd u hu⟩
    obtain ⟨U, hU⟩ := eventually_forall_lt c.dma.numGroups hdone
    refine ⟨T, U, fun u hu => ?_⟩
    have hall := hperm T
    rw [show (SplitRun.after c.split.toSplitParams [s.burstReq] down T).handed.flatMap
      DmaReq.bytes = s.burstReq.bytes from hT] at hall
    rw [writes, List.flatMap_congr fun g hg => List.flatMap_congr fun d hd =>
      hU g (List.mem_range.1 hg) u hu d (List.mem_range.1 hd)]
    exact hall

end Writes

/-- A load into the L1 of minpool over a border of its window, aligned differently on the two
sides. -/
def crossingLoad : FrontendState :=
  { FrontendState.reset with srcAddr := 0x80000003#32, dstAddr := 40#32, numBytes := 300#32 }

theorem transfer_copied_minpool :
    minpoolL2Dma.Transfer crossingLoad.burstReq ∧
    ∃ T U, ∀ u, U ≤ u → (minpoolL2Dma.writes (.list minpoolL2Dma.backend) 6
      (fun a => BitVec.ofNat 8 a) crossingLoad.burstReq (fun _ => .eager)
      (fun _ _ _ => .eager) T u).Perm
        (copies (fun a => BitVec.ofNat 8 a) crossingLoad.burstReq) := by
  have htransfer : minpoolL2Dma.Transfer crossingLoad.burstReq :=
    ⟨by decide +kernel, by decide +kernel, by decide +kernel, by decide +kernel,
      by decide +kernel⟩
  refine ⟨htransfer, ?_⟩
  exact (transfer_copied crossingLoad htransfer (.list minpoolL2Dma.backend)
    (fun a => BitVec.ofNat 8 a) (fun _ _ _ => .eager) (.inr (.inr rfl)) (Nat.le_refl 6)).2
      (fun t => ⟨t, Nat.le_refl t, rfl⟩)
      fun _ _ k t => ⟨t, Nat.le_refl t, by cases k <;> rfl⟩

end L2DmaConfig

end TeraNoC.Dma
