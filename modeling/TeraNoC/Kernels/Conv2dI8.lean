import TeraNoC.Kernels.Conv2d
import TeraNoC.Kernels.MatmulSimd

/-!
# 2D convolutions of bytes (`kernels/baremetal/mempool_conv2d_i8s.h`)

Single-core kernels: what is written to the output, in order, and the indices of the image that
are read. A counter that goes up by one is below its bound at the start of every turn, so the
loops are folds over its values.
-/

namespace TeraNoC.Kernels

open TeraNoC.Lib TeraNoC.Runtime

/-- The index and the value of every store, and the index of every load from the image. -/
structure ConvTrace where
  writes : List (Nat × Int32)
  reads : List Nat

def ConvTrace.append (s t : ConvTrace) : ConvTrace := ⟨s.writes ++ t.writes, s.reads ++ t.reads⟩

/-- The values of a counter that goes up by one from 1 while it is below `bound`. -/
def counter (bound : Nat) : List Nat := List.range' 1 (bound - 1)

/-- The trace of a loop over such a counter whose turns hand on a state. -/
def turnsTrace {σ : Type} (turn : σ × ConvTrace → Nat → σ × ConvTrace) (bound : Nat)
    (s : σ × ConvTrace) : ConvTrace := ((counter bound).foldl turn s).2

section Conv2dI8

variable (input : Nat → BitVec 8) (k : Nat → BitVec 8) (inX inY R C : Nat)

/-- A pixel, promoted to `int`. -/
def pixelI8 (i : Nat) : Int32 := extend (input i)

/-- A coefficient of type `uint8_t`, promoted to `int`. -/
def coeffI8 (t : Nat) : Int32 := (k t).setWidth 32

/-! ## Scalar kernels -/

/-- The pixels of a row of the window around column `i`. -/
def windowRow (row i : Nat) : List Nat :=
  [u32 (u32 (row * inX) + sub32 i 1), u32 (u32 (row * inX) + u32 (i + 0)),
    u32 (u32 (row * inX) + u32 (i + 1))]

/-- `conv2d_3x3_unrolled_i8_rv32im` -/
def conv2d3x3UnrolledI8Rv32im : ConvTrace where
  writes := (counter (sub32 inX 1)).flatMap fun i =>
    conv2d3x3UnrolledColumn (pixelI8 input) (coeffI8 k) inX inY i
  reads := (counter (sub32 inX 1)).flatMap fun i => (counter (sub32 inY 1)).flatMap fun j =>
    windowRow inX (sub32 j 1) i ++ windowRow inX (u32 (j + 0)) i ++ windowRow inX (u32 (j + 1)) i

/-- `elem_00`, … and `elem_10`, …, which go from turn to turn. -/
structure Elems where
  row0 : List (BitVec 8)
  row1 : List (BitVec 8)

/-- `elem_n0 * k[t] + elem_n1 * k[t + 1] + elem_n2 * k[t + 2]`, added up from the left. -/
def elemSum (row : List (BitVec 8)) (t : Nat) (sum : Int32) : Int32 :=
  ((row.zipIdx).foldl fun sum e => sum + extend e.1 * coeffI8 k (t + e.2)) sum

/-- The body of the loop over `j` of `conv2d_3x3_unrolled2_i8_rv32im`; `row2` is `elem_20`, … -/
def unrolled2Turn (i : Nat) (s : Elems × ConvTrace) (j : Nat) : Elems × ConvTrace :=
  let row2 := (windowRow inX (u32 (j + 1)) i).map input
  let sum := elemSum k s.1.row0 0 0
  let sum := elemSum k s.1.row1 3 sum
  let sum := elemSum k row2 6 sum
  (⟨s.1.row1, row2⟩,
    s.2.append ⟨[(u32 (u32 (j * inX) + i), div32 sum (convWeight (coeffI8 k) 9))],
      windowRow inX (u32 (j + 1)) i⟩)

/-- `conv2d_3x3_unrolled2_i8_rv32im`, the loop over `j`. -/
def unrolled2Column (i : Nat) : ConvTrace :=
  turnsTrace (unrolled2Turn input k inX i) (sub32 inY 1)
    (⟨(windowRow inX 0 i).map input, (windowRow inX 1 i).map input⟩,
      ⟨[], windowRow inX 0 i ++ windowRow inX 1 i⟩)

def conv2d3x3Unrolled2I8Rv32im : ConvTrace :=
  ((counter (sub32 inX 1)).map (unrolled2Column input k inX inY)).foldl ConvTrace.append ⟨[], []⟩

/-! ## Vector kernels -/

/-- `(v4s){x[0], x[1], x[2], 0}` -/
def v4sOf (x : Nat → BitVec 8) : V4s := (0 : BitVec 8) ++ x 2 ++ x 1 ++ x 0

/-- `coeff_0`, `coeff_1` and `coeff_2` -/
def coeffV4u (n : Nat) : V4s := v4sOf fun t => k (3 * n + t)

/-- The index of a pixel of the vector that is loaded around column `c`, `offset` pixels on. -/
def imgIndex (offset c n : Nat) : Nat := u32 (sub32 c 1 + n + offset)

def imgRow (offset c : Nat) : V4s := v4sOf fun n => input (imgIndex offset c n)

def imgReads (offset c : Nat) : List Nat := (List.range 3).map (imgIndex offset c)

/-- `Img_0`, `Img_1` and `Img_2`. -/
structure Window where
  img0 : V4s
  img1 : V4s
  img2 : V4s

/-- The window before the loop over `r`. -/
def firstWindow (c : Nat) : Window :=
  ⟨imgRow input 0 c, imgRow input R c, imgRow input (u32 (R * 2)) c⟩

def windowReads (c : Nat) : List Nat := imgReads 0 c ++ imgReads R c ++ imgReads (u32 (R * 2)) c

/-- `S / (int)weight`; `__builtin_pulp_dotsp4` is a sum of dot products from zero. -/
def windowValue (win : Window) : Int32 :=
  let S := sumdotp4 win.img0 (coeffV4u k 0) 0
  let S := sumdotp4 win.img1 (coeffV4u k 1) S
  let S := sumdotp4 win.img2 (coeffV4u k 2) S
  div32 S (convWeight (coeffI8 k) 9)

/-- `new_data` is loaded and the window moved one line down. -/
def moveWindow (r c : Nat) (win : Window) : Window :=
  ⟨win.img1, win.img2, imgRow input (u32 (u32 (r + 2) * R)) c⟩

/-- The body of the loop over `r`: the pixel of each column is written and its window moved. Only
the windows of the columns `cs` are used. -/
def vectorTurn (cs : List Nat) (s : (Nat → Window) × ConvTrace) (r : Nat) :
    (Nat → Window) × ConvTrace :=
  (fun c => moveWindow input R r c (s.1 c),
    s.2.append ⟨cs.map fun c => (u32 (u32 (r * R) + c), windowValue k (s.1 c)),
      cs.flatMap fun c => imgReads (u32 (u32 (r + 2) * R)) c⟩)

/-- The body of the loop over `c`, with the columns that it takes. -/
def vectorColumns (cs : List Nat) : ConvTrace :=
  turnsTrace (vectorTurn input k R cs) (sub32 R 1)
    (firstWindow input R, ⟨[], cs.flatMap (windowReads R)⟩)

/-- `conv2d_3x3_unrolled_i8_xpulpv2` -/
def conv2d3x3UnrolledI8Xpulpv2 : ConvTrace :=
  ((counter (sub32 C 1)).map fun c => vectorColumns input k R [c]).foldl ConvTrace.append ⟨[], []⟩

/-- `conv2d_3x3_unrolled2_i8_xpulpv2` -/
def conv2d3x3Unrolled2I8Xpulpv2 : ConvTrace :=
  ((counter (C / 2)).map fun c =>
    vectorColumns input k R [sub32 (u32 (2 * c)) 1, u32 (2 * c)]).foldl ConvTrace.append ⟨[], []⟩

end Conv2dI8

/-- The interior pixels of an image of `w` columns and `h` rows. -/
def Interior (w h index : Nat) : Prop :=
  ∃ r c, 1 ≤ r ∧ r + 1 < h ∧ 1 ≤ c ∧ c + 1 < w ∧ index = r * w + c

/-- The four kernels, called for an image of `w` columns and `h` rows. -/
def convI8Kernels (input k : Nat → BitVec 8) (w h : Nat) : List ConvTrace :=
  [conv2d3x3UnrolledI8Rv32im input k w h, conv2d3x3Unrolled2I8Rv32im input k w h,
    conv2d3x3UnrolledI8Xpulpv2 input k h w, conv2d3x3Unrolled2I8Xpulpv2 input k h w]

/-- The kernels of a list write the interior pixels, with the same values, and read only inside
the image. -/
structure ConvI8Agree (kernels : List ConvTrace) (w h : Nat) : Prop where
  pixels : ∀ t ∈ kernels, ∀ index, index ∈ t.writes.map Prod.fst ↔ Interior w h index
  values : ∀ t ∈ kernels, ∀ t' ∈ kernels, ∀ index v v',
    (index, v) ∈ t.writes → (index, v') ∈ t'.writes → v = v'
  reads : ∀ t ∈ kernels, ∀ index ∈ t.reads, index < w * h

end TeraNoC.Kernels
