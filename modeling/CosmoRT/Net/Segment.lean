import Mathlib.Data.List.Basic

/-!
# TCP segments on the wire

A segment as `tcp_input` (`net/tcp.c`) and `tcp6_input` (`net/tcp6.c`) cut it out of a frame,
and the loop over its options that the parsers share.
-/

namespace CosmoRT.Net

section

variable (pkt : ℕ → UInt8)

/-- `get16`: two bytes, most significant first. -/
def get16 (i : ℕ) : BitVec 16 := (pkt i).toBitVec ++ (pkt (i + 1)).toBitVec

/-- `get32`: four bytes, most significant first. -/
def get32 (i : ℕ) : BitVec 32 := get16 pkt i ++ get16 pkt (i + 2)

/-- A TCP segment, as the parsers cut it out of a frame. -/
structure Segment where
  sport : BitVec 16
  dport : BitVec 16
  seq : BitVec 32
  ack : BitVec 32
  flags : UInt8
  wnd : BitVec 16
  opts : List UInt8
  payload : List UInt8
  deriving DecidableEq, Repr

/-- The flags of the header. -/
def Segment.has (g : Segment) (mask : UInt8) : Bool := g.flags &&& mask ≠ 0

/-- `(flags & 0x3F) == 0x02`. -/
def Segment.isSyn (g : Segment) : Bool := g.flags &&& 0x3F = 0x02

end

/-! ## Options -/

/-- The loop over TCP options that all parsers share: `f` is given the bytes of one option,
kind and length included.  It ends at an end mark, at a length that does not fit, and with the
bytes. -/
def walkOptions {σ : Type} (f : σ → List UInt8 → σ) : ℕ → σ → List UInt8 → σ
  | 0, s, _ => s
  | _ + 1, s, [] => s
  | fuel + 1, s, kind :: rest =>
    if kind = 0 then s
    else if kind = 1 then walkOptions f fuel s rest
    else
      match rest with
      | [] => s
      | olen :: _ =>
        if olen.toNat < 2 ∨ olen.toNat > (kind :: rest).length then s
        else
          walkOptions f fuel (f s ((kind :: rest).take olen.toNat))
            ((kind :: rest).drop olen.toNat)

/-- Every turn takes at least one byte, so as many turns as there are bytes are enough. -/
def parseOptions {σ : Type} (f : σ → List UInt8 → σ) (s : σ) (opts : List UInt8) : σ :=
  walkOptions f opts.length s opts

/-- Byte `i` of an option. -/
def optByte (o : List UInt8) (i : ℕ) : UInt8 := o.getD i 0

/-- Four bytes of an option. -/
def opt32 (o : List UInt8) (i : ℕ) : BitVec 32 := get32 (optByte o) i

theorem parseOptions_keeps {σ : Type} {f : σ → List UInt8 → σ} {P : σ → Prop}
    (hstep : ∀ s o, P s → P (f s o)) {s : σ} (h : P s) (opts : List UInt8) :
    P (parseOptions f s opts) := by
  rw [parseOptions]
  generalize opts.length = fuel
  fun_induction walkOptions f fuel s opts with
  | case1 | case2 | case3 | case5 => exact h
  | case4 _ _ _ _ ih => exact ih h
  | case6 _ _ _ _ _ _ _ hbad => rwa [if_pos hbad]
  | case7 _ _ _ _ _ _ _ hfit ih =>
    rw [if_neg hfit]
    exact ih (hstep _ _ h)

end CosmoRT.Net
