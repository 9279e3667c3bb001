import Mlvpn.Ports.Protocol
import Mlvpn.Verified.CheckedSlice
import Mlvpn.Verified.OnesComplement

/-!
# MSS clamping

Port of `mss.rs`: the MSS option of a TCP SYN read off the TUN device is lowered to
what the tunnel's MTU can carry, and the TCP checksum is computed anew.  Everything
that does not parse as such a segment is left as it is.

Every access to the packet is checked, and both loops have a bound on their steps;
a result `ok` therefore says that the code stays within its buffers and comes to an
end.  The accumulator of the checksum wraps, as it does in a release build.

## Main results

* `walkOptions_cases`, `rewriteMssIfSyn_cases`: the option walk finds the first MSS
  option behind well-formed ones, and nothing else.
* `internetChecksum_eq`: the checksum is the complement of the folded word sum.
* `clampTcp_cases`: what is clamped, and to what.
-/

namespace Mlvpn.Ports.Mss

open Verified Protocol BigEndian CheckedSlice OnesComplement

def TCP_FLAG_SYN : UInt8 := 0x02
def TCP_OPT_END : UInt8 := 0
def TCP_OPT_NOP : UInt8 := 1
def TCP_OPT_MSS : UInt8 := 2
def IPV6_HEADER_LEN : Nat := 40
def PROTO_TCP : UInt8 := 6

/-- `u16::from_be_bytes`. -/
def fromBeBytes (hi lo : UInt8) : UInt16 := UInt16.ofNat (readBigEndian [hi, lo])

/-- `u16::to_be_bytes`. -/
def toBeBytes (x : UInt16) : Bytes := bigEndian 2 x.toNat

/-! ## The header and its options -/

def tcpHeaderLen (tcp : Bytes) : Checked (Option Nat) :=
  if tcp.length < 20 then .ok none
  else do
    let offset ← index tcp 12
    let len := (offset >>> 4).toNat * 4
    .ok (if len < 20 then none else some len)

/-- The loop of `rewrite_mss_if_syn`, at `i`. -/
def walkOptions (tcpHeader : Bytes) (maxSegment : UInt16) : Nat → Nat → Checked (Bytes × Bool)
  | 0, _ => .error .outOfSteps
  | steps + 1, i =>
      if i < tcpHeader.length then do
        let kind ← index tcpHeader i
        if kind = TCP_OPT_END then .ok (tcpHeader, false)
        else if kind = TCP_OPT_NOP then walkOptions tcpHeader maxSegment steps (i + 1)
        else if kind = TCP_OPT_MSS then
          if tcpHeader.length < i + 4 then .ok (tcpHeader, false)
          else do
            let len ← index tcpHeader (i + 1)
            if len ≠ 4 then .ok (tcpHeader, false)
            else do
              let hi ← index tcpHeader (i + 2)
              let lo ← index tcpHeader (i + 3)
              if fromBeBytes hi lo ≤ maxSegment then .ok (tcpHeader, false)
              else do
                let tcpHeader ← copyFromSlice tcpHeader (i + 2) (i + 4) (toBeBytes maxSegment)
                .ok (tcpHeader, true)
        else if tcpHeader.length ≤ i + 1 then .ok (tcpHeader, false)
        else do
          let optLen ← index tcpHeader (i + 1)
          if optLen.toNat < 2 ∨ tcpHeader.length < i + optLen.toNat then .ok (tcpHeader, false)
          else walkOptions tcpHeader maxSegment steps (i + optLen.toNat)
      else .ok (tcpHeader, false)

def rewriteMssIfSyn (tcpHeader : Bytes) (maxSegment : UInt16) : Checked (Bytes × Bool) :=
  if tcpHeader.length < 20 then .ok (tcpHeader, false)
  else do
    let flags ← index tcpHeader 13
    if flags &&& TCP_FLAG_SYN = 0 then .ok (tcpHeader, false)
    else walkOptions tcpHeader maxSegment tcpHeader.length 20

/-! ## The checksum -/

def sumWords (sum : UInt32) : Bytes → UInt32
  | [] => sum
  | [last] => sum + last.toUInt32 <<< 8
  | hi :: lo :: rest => sumWords (sum + (fromBeBytes hi lo).toUInt32) rest

/-- `while sum >> 16 != 0`. -/
def foldCarries : Nat → UInt32 → Checked UInt32
  | 0, _ => .error .outOfSteps
  | steps + 1, sum =>
      if sum >>> 16 ≠ 0 then foldCarries steps ((sum &&& (0xffff : UInt32)) + (sum >>> 16))
      else .ok sum

def internetChecksum (bytes : Bytes) : Checked UInt16 := do
  let sum ← foldCarries 3 (sumWords 0 bytes)
  .ok (~~~sum.toUInt16)

/-- `tcp_checksum_v4` and `_v6` from their pseudo-headers on: the old checksum, at
`cksumAt`, is not part of the sum. -/
def tcpChecksum (pseudoHeader tcpSegment : Bytes) (cksumAt : Nat) : Checked UInt16 := do
  let buf ← assign (pseudoHeader ++ tcpSegment) cksumAt 0
  let buf ← assign buf (cksumAt + 1) 0
  internetChecksum buf

def tcpChecksumV4 (src dst tcpSegment : Bytes) : Checked UInt16 :=
  tcpChecksum (src ++ dst ++ [0, PROTO_TCP] ++ bigEndian 2 tcpSegment.length) tcpSegment (12 + 16)

def tcpChecksumV6 (src dst tcpSegment : Bytes) : Checked UInt16 :=
  tcpChecksum (src ++ dst ++ bigEndian 4 tcpSegment.length ++ [0, 0, 0] ++ [PROTO_TCP]) tcpSegment
    (40 + 16)

/-! ## Clamping -/

/-- `mtu - ip - tcp` if that is positive. -/
def maxSegment (mtu : UInt16) (tcpStart tcpHeaderLen : Nat) : Option UInt16 :=
  if mtu.toNat < tcpStart then none
  else if mtu.toNat - tcpStart < tcpHeaderLen then none
  else
    let v := mtu.toNat - tcpStart - tcpHeaderLen
    if 0 < v then some (UInt16.ofNat v) else none

/-- What `clamp_ipv4` and `clamp_ipv6` do from `tcp_start` on. -/
def clampTcp (packet : Bytes) (mtu : UInt16) (tcpStart : Nat)
    (checksum : Bytes → Bytes → Checked UInt16) : Checked Bytes := do
  let tcp ← subslice packet tcpStart packet.length
  match ← tcpHeaderLen tcp with
  | none => .ok packet
  | some headerLen =>
      if packet.length < tcpStart + headerLen then .ok packet
      else
        match maxSegment mtu tcpStart headerLen with
        | none => .ok packet
        | some segment => do
            let header ← subslice packet tcpStart (tcpStart + headerLen)
            let (header, clamped) ← rewriteMssIfSyn header segment
            let packet ← copyFromSlice packet tcpStart (tcpStart + headerLen) header
            if clamped then do
              let tcp ← subslice packet tcpStart packet.length
              let checksum ← checksum packet tcp
              copyFromSlice packet (tcpStart + 16) (tcpStart + 18) (toBeBytes checksum)
            else .ok packet

def clampIpv4 (packet : Bytes) (mtu : UInt16) : Checked Bytes :=
  if packet.length < 20 then .ok packet
  else do
    let first ← index packet 0
    let ihl := (first &&& 0x0f).toNat * 4
    if ihl < 20 ∨ packet.length < ihl + 20 then .ok packet
    else do
      let proto ← index packet 9
      if proto ≠ PROTO_TCP then .ok packet
      else
        clampTcp packet mtu ihl fun packet tcp => do
          let src ← subslice packet 12 16
          let dst ← subslice packet 16 20
          tcpChecksumV4 src dst tcp

def clampIpv6 (packet : Bytes) (mtu : UInt16) : Checked Bytes :=
  if packet.length < IPV6_HEADER_LEN then .ok packet
  else do
    let nextHeader ← index packet 6
    -- extension headers are not walked
    if nextHeader ≠ PROTO_TCP then .ok packet
    else
      clampTcp packet mtu IPV6_HEADER_LEN fun packet tcp => do
        let src ← subslice packet 8 24
        let dst ← subslice packet 24 40
        tcpChecksumV6 src dst tcp

def clampIfTcpSyn (packet : Bytes) (mtu : UInt16) : Checked Bytes :=
  match packet.head? with
  | none => .ok packet
  | some first =>
      if first >>> 4 = 4 then clampIpv4 packet mtu
      else if first >>> 4 = 6 then clampIpv6 packet mtu
      else .ok packet

/-! ## The first MSS option -/

/-- After well-formed options the first MSS option of the list stands at `k`. -/
inductive FirstMss : Bytes → Nat → UInt16 → Prop where
  | here (hi lo : UInt8) (rest : Bytes) :
      FirstMss (TCP_OPT_MSS :: 4 :: hi :: lo :: rest) 0 (fromBeBytes hi lo)
  | nop {rest : Bytes} {k : Nat} {mss : UInt16} (next : FirstMss rest k mss) :
      FirstMss (TCP_OPT_NOP :: rest) (1 + k) mss
  | other {kind len : UInt8} {rest : Bytes} {k : Nat} {mss : UInt16}
      (hkind : kind ≠ TCP_OPT_END ∧ kind ≠ TCP_OPT_NOP ∧ kind ≠ TCP_OPT_MSS)
      (hlen : 2 ≤ len.toNat) (hfits : len.toNat ≤ rest.length + 2)
      (next : FirstMss (rest.drop (len.toNat - 2)) k mss) :
      FirstMss (kind :: len :: rest) (len.toNat + k) mss

variable {options : Bytes} {k : Nat} {mss : UInt16}

theorem FirstMss.length_le (h : FirstMss options k mss) : k + 4 ≤ options.length := by
  induction h with
  | here hi lo rest =>
    simp only [List.length_cons]
    omega
  | nop next ih =>
    simp only [List.length_cons]
    omega
  | other hkind hlen hfits next ih =>
    rw [List.length_drop] at ih
    simp only [List.length_cons]
    omega

theorem FirstMss.unique {k' : Nat} {mss' : UInt16}
    (h : FirstMss options k mss) (h' : FirstMss options k' mss') : k = k' ∧ mss = mss' := by
  induction h generalizing k' with
  | here hi lo rest =>
    cases h' with
    | here => exact ⟨rfl, rfl⟩
    | other hkind => exact absurd rfl hkind.2.2
  | nop next ih =>
    cases h' with
    | nop next' =>
      obtain ⟨rfl, rfl⟩ := ih next'
      exact ⟨rfl, rfl⟩
    | other hkind => exact absurd rfl hkind.2.1
  | other hkind hlen hfits next ih =>
    cases h' with
    | here => exact absurd rfl hkind.2.2
    | nop => exact absurd rfl hkind.2.1
    | other hkind' hlen' hfits' next' =>
      obtain ⟨rfl, rfl⟩ := ih next'
      exact ⟨rfl, rfl⟩

theorem fromBeBytes_toBeBytes (x : UInt16) :
    ∃ hi lo, toBeBytes x = [hi, lo] ∧ fromBeBytes hi lo = x :=
  ⟨_, _, rfl, ofNat_read_lenBytes x⟩

theorem overwrite_cons (x : UInt8) (xs : Bytes) (k : Nat) (ys : Bytes) :
    overwrite (x :: xs) (1 + k) ys = x :: overwrite xs k ys := by
  simp only [overwrite, Nat.add_comm 1 k, List.take_succ_cons, Nat.add_right_comm k 1,
    List.drop_succ_cons, List.cons_append]

/-- The option keeps its place when its value is replaced. -/
theorem FirstMss.overwrite (h : FirstMss options k mss) (value : UInt16) :
    FirstMss (overwrite options (k + 2) (toBeBytes value)) k value := by
  obtain ⟨hi, lo, hbytes, hvalue⟩ := fromBeBytes_toBeBytes value
  rw [hbytes]
  induction h with
  | here hi' lo' rest =>
    rw [← hvalue]
    exact .here hi lo rest
  | nop next ih =>
    rw [Nat.add_assoc, overwrite_cons]
    exact .nop ih
  | @other kind len rest k mss hkind hlen hfits next ih =>
    have hbound := next.length_le
    rw [List.length_drop] at hbound
    have hat : len.toNat + k + 2 = 1 + (1 + (len.toNat - 2 + (k + 2))) := by omega
    rw [hat, overwrite_cons, overwrite_cons]
    have hroom : len.toNat - 2 + (k + 2) + [hi, lo].length ≤ rest.length := by
      rw [show [hi, lo].length = 2 from rfl]
      omega
    refine .other hkind hlen (by rwa [length_overwrite hroom]) ?_
    rw [drop_overwrite (Nat.le_add_right _ _) hroom, Nat.add_sub_cancel_left]
    exact ih

/-- The walk from `i` on has two outcomes, and the options from `i` on decide which. -/
theorem walkOptions_cases (tcpHeader : Bytes) (maxSegment : UInt16) {steps i : Nat}
    (hi : i ≤ tcpHeader.length) (hsteps : tcpHeader.length < i + steps) :
    (∃ k mss, FirstMss (tcpHeader.drop i) k mss ∧ maxSegment < mss ∧
      walkOptions tcpHeader maxSegment steps i =
        .ok (overwrite tcpHeader (i + k + 2) (toBeBytes maxSegment), true)) ∨
    (∀ k mss, FirstMss (tcpHeader.drop i) k mss → mss ≤ maxSegment) ∧
      walkOptions tcpHeader maxSegment steps i = .ok (tcpHeader, false) := by
  induction steps generalizing i with
  | zero => exact absurd hsteps (by omega)
  | succ steps ih =>
    rcases hdrop : tcpHeader.drop i with _ | ⟨kind, tail⟩
    · have hend : ¬i < tcpHeader.length := Nat.not_lt.mpr (List.drop_eq_nil_iff.mp hdrop)
      exact .inr ⟨fun k mss h => (nomatch h), by rw [walkOptions, if_neg hend]⟩
    have hlength : tcpHeader.length = i + 1 + tail.length := by
      have := congrArg List.length hdrop
      rw [List.length_drop, List.length_cons] at this
      omega
    have hget : ∀ j, tcpHeader[i + j]? = (kind :: tail)[j]? := by
      intro j
      rw [← hdrop, List.getElem?_drop]
    have hnext : ∀ d, tcpHeader.drop (i + d) = (kind :: tail).drop d := by
      intro d
      rw [← hdrop, List.drop_drop]
    have hkind : index tcpHeader i = .ok kind := index_of_getElem? (hget 0)
    rw [walkOptions, if_pos (by omega), hkind, ok_bind]
    by_cases hkind0 : kind = TCP_OPT_END
    · rw [if_pos hkind0]
      subst hkind0
      refine .inr ⟨fun k mss h => ?_, rfl⟩
      cases h with
      | other hkind => exact absurd rfl hkind.1
    rw [if_neg hkind0]
    by_cases hkind1 : kind = TCP_OPT_NOP
    · rw [if_pos hkind1]
      subst hkind1
      rcases ih (i := i + 1) (by omega) (by omega) with ⟨k, mss, hfirst, hlt, hwalk⟩ |
        ⟨hnone, hwalk⟩
      · rw [hnext 1] at hfirst
        exact .inl ⟨1 + k, mss, .nop hfirst, hlt, by rw [hwalk, ← Nat.add_assoc i 1 k]⟩
      · refine .inr ⟨fun k mss h => ?_, hwalk⟩
        rw [hnext 1] at hnone
        cases h with
        | nop next => exact hnone _ mss next
        | other hkind => exact absurd rfl hkind.2.1
    rw [if_neg hkind1]
    by_cases hkind2 : kind = TCP_OPT_MSS
    · rw [if_pos hkind2]
      subst hkind2
      by_cases hshort : tcpHeader.length < i + 4
      · rw [if_pos hshort]
        refine .inr ⟨fun k mss h => ?_, rfl⟩
        have := h.length_le
        rw [List.length_cons] at this
        omega
      obtain ⟨len, hi', lo', rest, rfl⟩ :
          ∃ len hi' lo' rest, tail = len :: hi' :: lo' :: rest := by
        match tail, hlength with
        | len :: hi' :: lo' :: rest, _ => exact ⟨len, hi', lo', rest, rfl⟩
        | [], h | [_], h | [_, _], h => simp at h; omega
      rw [if_neg hshort, index_of_getElem? (hget 1), ok_bind]
      by_cases hlen : len = 4
      · subst hlen
        rw [if_neg (not_not.mpr rfl), index_of_getElem? (hget 2), ok_bind,
          index_of_getElem? (hget 3), ok_bind]
        by_cases hfits : fromBeBytes hi' lo' ≤ maxSegment
        · rw [if_pos hfits]
          refine .inr ⟨fun k mss h => ?_, rfl⟩
          cases h with
          | here => exact hfits
          | other hkind => exact absurd rfl hkind.2.2
        · rw [if_neg hfits, copyFromSlice_of_le (by omega) (by omega)
            (by rw [toBeBytes, bigEndian_length]; omega), ok_bind]
          exact .inl ⟨0, _, .here hi' lo' rest, UInt16.not_le.mp hfits, rfl⟩
      · rw [if_pos hlen]
        refine .inr ⟨fun k mss h => ?_, rfl⟩
        cases h with
        | here => exact absurd rfl hlen
        | other hkind => exact absurd rfl hkind.2.2
    rw [if_neg hkind2]
    cases tail with
    | nil =>
      rw [if_pos (by rw [hlength, List.length_nil])]
      exact .inr ⟨fun k mss h => by
        have := h.length_le
        simp at this, rfl⟩
    | cons len rest =>
      rw [List.length_cons] at hlength
      rw [if_neg (by omega), index_of_getElem? (hget 1), ok_bind]
      by_cases hmalformed : len.toNat < 2 ∨ tcpHeader.length < i + len.toNat
      · rw [if_pos hmalformed]
        refine .inr ⟨fun k mss h => ?_, rfl⟩
        cases h with
        | here => exact absurd rfl hkind2
        | nop => exact absurd rfl hkind1
        | other hkind hlen hfits => omega
      rw [if_neg hmalformed]
      have hrest : tcpHeader.drop (i + len.toNat) = rest.drop (len.toNat - 2) := by
        rw [hnext, show len.toNat = len.toNat - 2 + 1 + 1 by omega]
        rfl
      rcases ih (i := i + len.toNat) (by omega) (by omega) with ⟨k, mss, hfirst, hlt, hwalk⟩ |
        ⟨hnone, hwalk⟩
      · rw [hrest] at hfirst
        exact .inl ⟨len.toNat + k, mss,
          .other ⟨hkind0, hkind1, hkind2⟩ (by omega) (by omega) hfirst, hlt,
          by rw [hwalk, ← Nat.add_assoc i]⟩
      · refine .inr ⟨fun k mss h => ?_, hwalk⟩
        rw [hrest] at hnone
        cases h with
        | here => exact absurd rfl hkind2
        | nop => exact absurd rfl hkind1
        | other _ _ _ next => exact hnone _ mss next

theorem rewriteMssIfSyn_cases (tcpHeader : Bytes) (maxSegment : UInt16)
    (hlength : 20 ≤ tcpHeader.length) :
    (∃ flags k mss, tcpHeader[13]? = some flags ∧ flags &&& TCP_FLAG_SYN ≠ 0 ∧
      FirstMss (tcpHeader.drop 20) k mss ∧ maxSegment < mss ∧
      rewriteMssIfSyn tcpHeader maxSegment =
        .ok (overwrite tcpHeader (20 + k + 2) (toBeBytes maxSegment), true)) ∨
    (∀ flags k mss, tcpHeader[13]? = some flags → flags &&& TCP_FLAG_SYN ≠ 0 →
      FirstMss (tcpHeader.drop 20) k mss → mss ≤ maxSegment) ∧
      rewriteMssIfSyn tcpHeader maxSegment = .ok (tcpHeader, false) := by
  obtain ⟨flags, hflags⟩ : ∃ flags, tcpHeader[13]? = some flags :=
    ⟨_, List.getElem?_eq_getElem (by omega)⟩
  rw [rewriteMssIfSyn, if_neg (by omega), index_of_getElem? hflags, ok_bind]
  by_cases hsyn : flags &&& TCP_FLAG_SYN = 0
  · rw [if_pos hsyn]
    refine .inr ⟨fun flags' k mss hflags' hsyn' => ?_, rfl⟩
    rw [hflags] at hflags'
    cases hflags'
    exact absurd hsyn hsyn'
  · rw [if_neg hsyn]
    rcases walkOptions_cases tcpHeader maxSegment hlength (Nat.lt_add_of_pos_left (by decide)) with
      ⟨k, mss, hfirst, hlt, hwalk⟩ | ⟨hnone, hwalk⟩
    · exact .inl ⟨flags, k, mss, hflags, hsyn, hfirst, hlt, hwalk⟩
    · exact .inr ⟨fun _ k mss _ _ => hnone k mss, hwalk⟩

/-! ## The checksum as a folded sum -/

theorem toNat_fromBeBytes (hi lo : UInt8) :
    (fromBeBytes hi lo).toNat = hi.toNat * 256 + lo.toNat := by
  have := hi.toNat_lt
  have := lo.toNat_lt
  rw [fromBeBytes, UInt16.toNat_ofNat']
  simp only [readBigEndian, List.foldl_cons, List.foldl_nil]
  omega

theorem toNat_sumWords (sum : UInt32) (bytes : Bytes) :
    (sumWords sum bytes).toNat = (sum.toNat + wordSum bytes) % 2 ^ 32 := by
  induction sum, bytes using sumWords.induct with
  | case1 sum =>
    have := sum.toNat_lt
    rw [sumWords, wordSum]
    omega
  | case2 sum last =>
    have := last.toNat_lt
    rw [sumWords, wordSum, UInt32.toNat_add, UInt32.toNat_shiftLeft, UInt8.toNat_toUInt32,
      Nat.shiftLeft_eq]
    simp
  | case3 sum hi lo rest ih =>
    rw [sumWords, wordSum, ih, UInt32.toNat_add, UInt16.toNat_toUInt32, toNat_fromBeBytes]
    omega

theorem toNat_carry (sum : UInt32) :
    ((sum &&& (0xffff : UInt32)) + (sum >>> 16)).toNat =
      sum.toNat % 65536 + sum.toNat / 65536 := by
  have hlt := sum.toNat_lt
  have hlow : (sum &&& (0xffff : UInt32)).toNat = sum.toNat % 65536 := by
    rw [UInt32.toNat_and]
    exact Nat.and_two_pow_sub_one_eq_mod sum.toNat 16
  have hhigh : (sum >>> 16).toNat = sum.toNat / 65536 := by
    rw [UInt32.toNat_shiftRight]
    exact Nat.shiftRight_eq_div_pow sum.toNat 16
  rw [UInt32.toNat_add, hlow, hhigh]
  omega

theorem shiftRight_ne_zero_iff (sum : UInt32) : sum >>> 16 ≠ 0 ↔ 65536 ≤ sum.toNat := by
  have hhigh : (sum >>> 16).toNat = sum.toNat / 65536 := by
    rw [UInt32.toNat_shiftRight]
    exact Nat.shiftRight_eq_div_pow sum.toNat 16
  rw [ne_eq, ← UInt32.toNat_inj, hhigh, UInt32.toNat_zero]
  omega

/-- The loop has ended with the folded sum. -/
def FoldsTo (steps : Nat) (sum : UInt32) : Prop :=
  ∃ folded, foldCarries steps sum = .ok folded ∧ folded.toNat = fold sum.toNat

theorem foldsTo_of_lt (steps : Nat) {sum : UInt32} (h : sum.toNat < 65536) :
    FoldsTo (steps + 1) sum :=
  ⟨sum, by rw [foldCarries, if_neg (by rw [shiftRight_ne_zero_iff]; omega)], (fold_of_lt h).symm⟩

theorem FoldsTo.succ {steps : Nat} {sum : UInt32} (h : 65536 ≤ sum.toNat)
    (hnext : FoldsTo steps ((sum &&& (0xffff : UInt32)) + (sum >>> 16))) :
    FoldsTo (steps + 1) sum := by
  obtain ⟨folded, hloop, hfolded⟩ := hnext
  refine ⟨folded, ?_, ?_⟩
  · rw [foldCarries, if_pos ((shiftRight_ne_zero_iff sum).mpr h), hloop]
  · rw [hfolded, toNat_carry, ← fold_of_le h]

/-- Two rounds are enough for 32 bits, and a third test ends the loop. -/
theorem foldsTo_three (sum : UInt32) : FoldsTo 3 sum := by
  have hlt := sum.toNat_lt
  by_cases h : sum.toNat < 65536
  · exact foldsTo_of_lt 2 h
  refine FoldsTo.succ (by omega) ?_
  by_cases h' : ((sum &&& (0xffff : UInt32)) + (sum >>> 16)).toNat < 65536
  · exact foldsTo_of_lt 1 h'
  refine FoldsTo.succ (by omega) (foldsTo_of_lt 0 ?_)
  rw [toNat_carry] at h' ⊢
  rw [toNat_carry]
  omega

theorem internetChecksum_eq (bytes : Bytes) :
    ∃ checksum, internetChecksum bytes = .ok checksum ∧
      checksum.toNat = 65535 - fold (wordSum bytes % 2 ^ 32) := by
  obtain ⟨folded, hloop, hfolded⟩ := foldsTo_three (sumWords 0 bytes)
  have hsum : folded.toNat = fold (wordSum bytes % 2 ^ 32) := by
    rw [hfolded, toNat_sumWords, UInt32.toNat_zero, Nat.zero_add]
  refine ⟨~~~folded.toUInt16, by rw [internetChecksum, hloop, ok_bind], ?_⟩
  have hlt := fold_lt (wordSum bytes % 2 ^ 32)
  rw [UInt16.toNat_not, UInt32.toNat_toUInt16, hsum, Nat.mod_eq_of_lt hlt]
  rfl

/-- The sum leaves the old checksum out. -/
theorem tcpChecksum_eq {pseudoHeader tcpSegment : Bytes} {cksumAt : Nat}
    (hat : cksumAt = pseudoHeader.length + 16) (hsegment : 20 ≤ tcpSegment.length) :
    ∃ checksum, tcpChecksum pseudoHeader tcpSegment cksumAt = .ok checksum ∧
      checksum.toNat =
        65535 - fold (wordSum (pseudoHeader ++ overwrite tcpSegment 16 [0, 0]) % 2 ^ 32) := by
  have hlength : (pseudoHeader ++ tcpSegment).length = pseudoHeader.length + tcpSegment.length :=
    List.length_append
  have hzeroed : ((pseudoHeader ++ tcpSegment).set cksumAt 0).set (cksumAt + 1) 0 =
      pseudoHeader ++ overwrite tcpSegment 16 [0, 0] := by
    rw [set_set_eq_overwrite _ _ (by omega), hat, overwrite_append_right]
  obtain ⟨checksum, hsum, hvalue⟩ :=
    internetChecksum_eq (pseudoHeader ++ overwrite tcpSegment 16 [0, 0])
  refine ⟨checksum, ?_, hvalue⟩
  rw [tcpChecksum, assign, if_pos (by omega), ok_bind, assign, List.length_set,
    if_pos (by omega), ok_bind, hzeroed, hsum]

/-- What stands in the checksum's place adds to the sum of the rest. -/
theorem wordSum_overwrite {pseudoHeader tcpSegment : Bytes}
    (heven : pseudoHeader.length % 2 = 0) (hsegment : 20 ≤ tcpSegment.length) (x : UInt16) :
    wordSum (pseudoHeader ++ overwrite tcpSegment 16 (toBeBytes x)) =
      wordSum (pseudoHeader ++ overwrite tcpSegment 16 [0, 0]) + x.toNat := by
  obtain ⟨hi, lo, hbytes, hvalue⟩ := fromBeBytes_toBeBytes x
  have htake : (tcpSegment.take 16).length % 2 = 0 := by
    rw [List.length_take, Nat.min_eq_left (by omega)]
  have hsplit : ∀ b b' : UInt8, wordSum (pseudoHeader ++ overwrite tcpSegment 16 [b, b']) =
      wordSum pseudoHeader + (wordSum (tcpSegment.take 16) +
        (b.toNat * 256 + b'.toNat + wordSum (tcpSegment.drop 18))) := by
    intro b b'
    rw [wordSum_append _ heven, overwrite, List.append_assoc, wordSum_append _ htake]
    rfl
  have hzero : (0 : UInt8).toNat = 0 := rfl
  rw [hbytes, hsplit, hsplit, ← hvalue, toNat_fromBeBytes, hzero]
  omega

/-! ## The TCP part -/

/-- At `tcpStart` a TCP header lies fully inside the packet, with SYN set and its
first MSS option, `mss`, at `mssAt`. -/
structure TcpSyn (packet : Bytes) (tcpStart headerLen mssAt : Nat) (mss : UInt16) : Prop where
  offset : ∃ b, packet[tcpStart + 12]? = some b ∧ (b >>> 4).toNat * 4 = headerLen
  full : 20 ≤ headerLen
  inside : tcpStart + headerLen ≤ packet.length
  syn : ∃ flags, packet[tcpStart + 13]? = some flags ∧ flags &&& TCP_FLAG_SYN ≠ 0
  first : ∃ k, mssAt = tcpStart + 20 + k ∧
    FirstMss (slice packet (tcpStart + 20) (tcpStart + headerLen)) k mss

theorem maxSegment_eq (mtu : UInt16) (tcpStart headerLen : Nat) :
    maxSegment mtu tcpStart headerLen =
      if tcpStart + headerLen < mtu.toNat then
        some (UInt16.ofNat (mtu.toNat - tcpStart - headerLen))
      else none := by
  dsimp only [maxSegment]
  by_cases hroom : tcpStart + headerLen < mtu.toNat
  · rw [if_pos hroom, if_neg (by omega), if_neg (by omega), if_pos (by omega)]
  · rw [if_neg hroom]
    split
    · rfl
    · split
      · rfl
      · rw [if_neg (by omega)]

/-- What is left of the MTU, at most. -/
def segmentFor (mtu : UInt16) (tcpStart headerLen : Nat) : UInt16 :=
  UInt16.ofNat (mtu.toNat - tcpStart - headerLen)

theorem toNat_segmentFor (mtu : UInt16) (tcpStart headerLen : Nat) :
    (segmentFor mtu tcpStart headerLen).toNat = mtu.toNat - tcpStart - headerLen := by
  have := mtu.toNat_lt
  rw [segmentFor, UInt16.toNat_ofNat', Nat.mod_eq_of_lt (by omega)]

/-- The MSS is more than the MTU leaves, and that is not nothing. -/
structure Oversized (packet : Bytes) (mtu : UInt16) (tcpStart headerLen mssAt : Nat)
    (mss : UInt16) : Prop where
  tcp : TcpSyn packet tcpStart headerLen mssAt mss
  room : tcpStart + headerLen < mtu.toNat
  exceeds : segmentFor mtu tcpStart headerLen < mss

/-- The packet with another MSS. -/
def withMss (packet : Bytes) (mssAt : Nat) (mss : UInt16) : Bytes :=
  overwrite packet (mssAt + 2) (toBeBytes mss)

theorem tcpHeaderLen_cases (tcp : Bytes) :
    (∃ b : UInt8, tcp[12]? = some b ∧ 20 ≤ tcp.length ∧ 20 ≤ (b >>> 4).toNat * 4 ∧
      tcpHeaderLen tcp = .ok (some ((b >>> 4).toNat * 4))) ∨
    (∀ b : UInt8, tcp[12]? = some b → 20 ≤ tcp.length → (b >>> 4).toNat * 4 < 20) ∧
      tcpHeaderLen tcp = .ok none := by
  unfold tcpHeaderLen
  by_cases hshort : tcp.length < 20
  · rw [if_pos hshort]
    exact .inr ⟨fun _ _ h => absurd h (Nat.not_le.mpr hshort), rfl⟩
  obtain ⟨b, hb⟩ : ∃ b, tcp[12]? = some b := ⟨_, List.getElem?_eq_getElem (by omega)⟩
  rw [if_neg hshort, index_of_getElem? hb, ok_bind]
  by_cases hlen : (b >>> 4).toNat * 4 < 20
  · refine .inr ⟨fun b' hb' _ => ?_, by simp only [if_pos hlen]⟩
    rw [hb] at hb'
    cases hb'
    exact hlen
  · exact .inl ⟨b, hb, by omega, by omega, by simp only [if_neg hlen]⟩

theorem TcpSyn.headerLen_eq {packet : Bytes} {tcpStart headerLen mssAt : Nat}
    (h : TcpSyn packet tcpStart headerLen mssAt mss) {b : UInt8}
    (hb : (packet.drop tcpStart)[12]? = some b) : (b >>> 4).toNat * 4 = headerLen := by
  obtain ⟨b', hb', hlen⟩ := h.offset
  rw [List.getElem?_drop, hb'] at hb
  cases hb
  exact hlen

/-- The header as the code slices it, seen from the packet. -/
theorem drop_header (packet : Bytes) (tcpStart headerLen : Nat) :
    ((packet.drop tcpStart).take (tcpStart + headerLen - tcpStart)).drop 20 =
      slice packet (tcpStart + 20) (tcpStart + headerLen) := by
  have hlen : tcpStart + headerLen - tcpStart - 20 = tcpStart + headerLen - (tcpStart + 20) := by
    omega
  rw [List.drop_take, List.drop_drop, slice, hlen]

/-- From `tcp_start` on, an oversized MSS is replaced and the checksum with it; all
else stays. -/
theorem clampTcp_cases {packet : Bytes} (mtu : UInt16) {tcpStart : Nat}
    {checksum : Bytes → Bytes → Checked UInt16} (hstart : tcpStart ≤ packet.length)
    (hsum : ∀ p : Bytes, p.length = packet.length → tcpStart + 20 ≤ p.length →
      ∃ c, checksum p (p.drop tcpStart) = .ok c) :
    (∃ headerLen mssAt mss c, Oversized packet mtu tcpStart headerLen mssAt mss ∧
      checksum (withMss packet mssAt (segmentFor mtu tcpStart headerLen))
        ((withMss packet mssAt (segmentFor mtu tcpStart headerLen)).drop tcpStart) = .ok c ∧
      clampTcp packet mtu tcpStart checksum =
        .ok (overwrite (withMss packet mssAt (segmentFor mtu tcpStart headerLen)) (tcpStart + 16)
          (toBeBytes c))) ∨
    (∀ headerLen mssAt mss, ¬Oversized packet mtu tcpStart headerLen mssAt mss) ∧
      clampTcp packet mtu tcpStart checksum = .ok packet := by
  have hrest : ∀ p : Bytes, tcpStart ≤ p.length →
      subslice p tcpStart p.length = .ok (p.drop tcpStart) := by
    intro p hp
    rw [subslice_of_le hp (Nat.le_refl _), List.take_of_length_le (by rw [List.length_drop])]
  have hdroplen : (packet.drop tcpStart).length = packet.length - tcpStart := List.length_drop
  unfold clampTcp
  rw [hrest packet hstart, ok_bind]
  rcases tcpHeaderLen_cases (packet.drop tcpStart) with ⟨b, hb, hlong, hfull, hlen⟩ | ⟨hnone, hlen⟩
  case inr =>
    rw [hlen, ok_bind]
    refine .inr ⟨fun headerLen mssAt mss hover => ?_, rfl⟩
    obtain ⟨b, hb, hoffset⟩ := hover.tcp.offset
    have hinside := hover.tcp.inside
    have hfull := hover.tcp.full
    have := hnone b (by rw [List.getElem?_drop, hb]) (by omega)
    omega
  rw [hlen, ok_bind]
  generalize hheader : (b >>> 4).toNat * 4 = headerLen at *
  have hunique : ∀ headerLen' mssAt mss, Oversized packet mtu tcpStart headerLen' mssAt mss →
      headerLen = headerLen' :=
    fun _ _ _ hover => hheader.symm.trans (hover.tcp.headerLen_eq hb)
  dsimp only
  by_cases hinside : packet.length < tcpStart + headerLen
  · rw [if_pos hinside]
    refine .inr ⟨fun headerLen' mssAt mss hover => ?_, rfl⟩
    have := hover.tcp.inside
    have := hunique _ _ _ hover
    omega
  rw [if_neg hinside, maxSegment_eq]
  by_cases hroom : tcpStart + headerLen < mtu.toNat
  case neg =>
    rw [if_neg hroom]
    refine .inr ⟨fun headerLen' mssAt mss hover => ?_, rfl⟩
    have := hover.room
    have := hunique _ _ _ hover
    omega
  rw [if_pos hroom, subslice_of_le (by omega) (by omega)]
  dsimp only
  rw [ok_bind]
  have hsub : tcpStart + headerLen - tcpStart = headerLen := Nat.add_sub_cancel_left _ _
  have hheaderlen :
      ((packet.drop tcpStart).take (tcpStart + headerLen - tcpStart)).length = headerLen := by
    rw [List.length_take, hsub]
    omega
  have hflags : ((packet.drop tcpStart).take (tcpStart + headerLen - tcpStart))[13]? =
      packet[tcpStart + 13]? := by
    rw [List.getElem?_take_of_lt (by omega), List.getElem?_drop]
  have hcases := rewriteMssIfSyn_cases
    ((packet.drop tcpStart).take (tcpStart + headerLen - tcpStart))
    (segmentFor mtu tcpStart headerLen) (by omega)
  rw [drop_header, hflags] at hcases
  rcases hcases with ⟨flags, k, mss, hsyn, hset, hfirst, hexceeds, hrewrite⟩ | ⟨hfits, hrewrite⟩
  case inr =>
    rw [segmentFor] at hrewrite
    rw [hrewrite, ok_bind, copyFromSlice_of_le (by omega) (by omega) (by rw [hheaderlen, hsub]),
      ok_bind, overwrite_self _ (by omega)]
    refine .inr ⟨fun headerLen' mssAt mss hover => ?_, rfl⟩
    cases hunique _ _ _ hover
    obtain ⟨flags, hsyn, hset⟩ := hover.tcp.syn
    obtain ⟨k, -, hfirst⟩ := hover.tcp.first
    exact absurd hover.exceeds (UInt16.not_lt.mpr (hfits flags k mss hsyn hset hfirst))
  have hover : Oversized packet mtu tcpStart headerLen (tcpStart + 20 + k) mss :=
    { tcp := ⟨⟨b, by rw [← List.getElem?_drop, hb], hheader⟩, hfull, by omega, ⟨flags, hsyn, hset⟩,
        k, rfl, hfirst⟩
      room := hroom
      exceeds := hexceeds }
  have hk := hfirst.length_le
  rw [slice, List.length_take, List.length_drop] at hk
  have htwo : ∀ x : UInt16, (toBeBytes x).length = 2 := fun _ => rfl
  have hwhole : overwrite packet tcpStart
      (overwrite ((packet.drop tcpStart).take (tcpStart + headerLen - tcpStart)) (20 + k + 2)
        (toBeBytes (segmentFor mtu tcpStart headerLen))) =
      withMss packet (tcpStart + 20 + k) (segmentFor mtu tcpStart headerLen) := by
    rw [overwrite_subslice (by rw [htwo, hsub]; omega) (by omega), withMss]
    simp only [Nat.add_assoc]
  have hlength : (withMss packet (tcpStart + 20 + k) (segmentFor mtu tcpStart headerLen)).length =
      packet.length := length_overwrite (by rw [htwo]; omega)
  obtain ⟨c, hc⟩ := hsum _ hlength (by omega)
  refine .inl ⟨headerLen, tcpStart + 20 + k, mss, c, hover, hc, ?_⟩
  have hwritten : (overwrite ((packet.drop tcpStart).take (tcpStart + headerLen - tcpStart))
      (20 + k + 2) (toBeBytes (segmentFor mtu tcpStart headerLen))).length =
        tcpStart + headerLen - tcpStart := by
    rw [length_overwrite (by rw [htwo, hheaderlen]; omega), hheaderlen, hsub]
  rw [← segmentFor, hrewrite, ok_bind, copyFromSlice_of_le (by omega) (by omega) hwritten, ok_bind,
    hwhole]
  dsimp only
  rw [if_pos rfl, hrest _ (by omega), ok_bind, hc, ok_bind,
    copyFromSlice_of_le (by omega) (by omega) (by rw [htwo]; omega)]

end Mlvpn.Ports.Mss
