import PosixTasks.MonteCarlo.Arguments
import PosixTasks.MonteCarlo.Discovery

/-!
# The address of a server

`parse_ip_port` copies the first 127 bytes of its input, cuts the copy at the first colon and reads
the port behind it with `strtol`, which skips blanks, takes a sign and leaves the rest.

## Main results

* `acceptsEndpoints_iff`: exactly the endpoints are accepted, with their address and port, unless
  the text behind an address is read as a port and is not one, or the copy has cut it.
-/

namespace MonteCarlo

open CString

/-- A number of a dotted quad: decimal, without zeros in front, at most 255. -/
def octet (s : Text) : Option ℕ :=
  let n := digitsValue s
  if s = decimal n ∧ n ≤ 255 then some n else none

/-- `inet_pton` with `AF_INET`: the address as a little-endian machine stores it. -/
def inetPton (s : Text) : Option UInt32 :=
  match s.splitOn '.' with
  | [a, b, c, d] => do
      let a ← octet a
      let b ← octet b
      let c ← octet c
      let d ← octet d
      return UInt32.ofNat (a + 256 * (b + 256 * (c + 256 * d)))
  | _ => none

/-- `strtol` with base 10. -/
def strtol (s : Text) : ℤ :=
  clamp (leadingNumber s)

/-- Room in `buf` besides its NUL. -/
def addressBytes : ℕ := 127

/-- The port that is read from `port_str`. -/
def readPort (portStr : Text) : Option UInt16 :=
  let p := strtol portStr
  if p ≤ 0 ∨ 65535 < p then none else some (UInt16.ofNat p.toNat)

/-- `parse_ip_port`: the address and the port where it returns 0. -/
def parseIpPort (input : Text) : Option (UInt32 × UInt16) :=
  let buf := input.take addressBytes
  let address := buf.takeWhile (· ≠ ':')
  match buf.drop address.length with
  | [] => (inetPton address).map fun addr => (addr, tcpTaskPort)
  | _ :: portStr => do
      let port ← readPort portStr
      let addr ← inetPton address
      return (addr, port)

/-- A decimal port number from 1 to 65535. -/
def IsPort (s : Text) : Prop :=
  IsDigits s ∧ 1 ≤ digitsValue s ∧ digitsValue s ≤ 65535

instance (s : Text) : Decidable (IsPort s) :=
  inferInstanceAs (Decidable ((∀ c ∈ s, c.isDigit = true) ∧ _ ∧ _))

/-- An IPv4 address, alone or with a colon and a port number. -/
inductive Endpoint : Text → UInt32 → UInt16 → Prop
  | address {s : Text} {addr : UInt32} : inetPton s = some addr → Endpoint s addr tcpTaskPort
  | withPort {s port : Text} {addr : UInt32} : inetPton s = some addr → IsPort port →
      Endpoint (s ++ ':' :: port) addr (UInt16.ofNat (digitsValue port))

/-- The input is accepted exactly if it is an endpoint, and then for what it says. -/
def AcceptsEndpoints (input : Text) : Prop :=
  ∀ addr port, parseIpPort input = some (addr, port) ↔ Endpoint input addr port

/-- `strtol` reads a number from 1 to 65535. -/
def ReadsAsPort (s : Text) : Prop :=
  1 ≤ strtol s ∧ strtol s ≤ 65535

/-- The text behind the colon of an address is a port number, or what the copy has of it is read as
one, and it has more than digits or is cut by the copy. -/
def MisreadPort (input : Text) : Prop :=
  ∃ s port, input = s ++ ':' :: port ∧ (inetPton s).isSome ∧
    (ReadsAsPort (port.take (addressBytes - (s.length + 1))) ∨ IsPort port) ∧
    ¬ (IsDigits port ∧ input.length ≤ addressBytes)

/-! ## Addresses -/

theorem octet_eq_some {s : Text} {n : ℕ} (h : octet s = some n) : IsDigits s ∧ s.length ≤ 3 := by
  simp only [octet] at h
  split at h
  next hs =>
    rw [hs.1]
    exact ⟨isDigits_decimal _, length_decimal_le (by decide) (lt_of_le_of_lt hs.2 (by decide))⟩
  next => cases h

/-- An address is short and has no colon. -/
theorem inetPton_eq_some {s : Text} {addr : UInt32} (h : inetPton s = some addr) :
    ':' ∉ s ∧ s.length ≤ 15 := by
  unfold inetPton at h
  split at h
  next a b c d hsplit =>
    simp only [Option.bind_eq_bind, Option.bind_eq_some_iff] at h
    obtain ⟨_, ha, _, hb, _, hc, _, hd, -⟩ := h
    -- four groups of at most three digits with dots between them
    have hs : s = a ++ '.' :: (b ++ '.' :: (c ++ '.' :: d)) := by
      have hjoin : ['.'].intercalate (s.splitOn '.') = s := List.intercalate_splitOn '.'
      rw [← hjoin, hsplit]
      simp [List.intercalate]
    have hcolon : ∀ {t : Text}, IsDigits t → ':' ∉ t := fun ht hmem =>
      absurd (ht ':' hmem) (by decide)
    obtain ⟨da, la⟩ := octet_eq_some ha
    obtain ⟨db, lb⟩ := octet_eq_some hb
    obtain ⟨dc, lc⟩ := octet_eq_some hc
    obtain ⟨dd, ld⟩ := octet_eq_some hd
    rw [hs]
    refine ⟨by simp [hcolon da, hcolon db, hcolon dc, hcolon dd], ?_⟩
    simp only [List.length_append, List.length_cons]
    omega
  next => cases h

/-! ## Ports -/

/-- The port that a text of digits is. -/
def portOf (s : Text) : Option UInt16 :=
  if IsPort s then some (UInt16.ofNat (digitsValue s)) else none

/-- `strtol` reads digits as they are. -/
theorem strtol_of_isDigits {s : Text} (h : IsDigits s) :
    strtol s = min (digitsValue s : ℤ) (2 ^ 63 - 1) := by
  have hhead : ∀ c ∈ s.head?, c.isDigit = true := by
    intro c hc
    exact h c (List.mem_of_mem_head? hc)
  have hskip : s.dropWhile isSpace = s := by
    cases s with
    | nil => rfl
    | cons c s => simp [isSpace_of_isDigit (h c List.mem_cons_self)]
  have hdigits : leadingDigits s = s := by
    rw [leadingDigits, List.takeWhile_eq_self_iff]
    exact h
  simp only [strtol, leadingNumber, hskip, scanSign_of_isDigit hhead, hdigits, Bool.false_eq_true,
    if_false, clamp]
  omega

theorem readPort_eq_none_iff (s : Text) : readPort s = none ↔ ¬ ReadsAsPort s := by
  simp only [readPort, ReadsAsPort]
  split <;> simp <;> omega

theorem portOf_eq_none_iff (s : Text) : portOf s = none ↔ ¬ IsPort s := by
  simp [portOf]

/-- Digits are read as the port that they are. -/
theorem readPort_of_isDigits {s : Text} (h : IsDigits s) : readPort s = portOf s := by
  have hvalue := strtol_of_isDigits h
  simp only [readPort, portOf, IsPort, h, true_and]
  by_cases hport : 1 ≤ digitsValue s ∧ digitsValue s ≤ 65535
  · have hnat : strtol s = digitsValue s := by omega
    rw [if_neg (by omega), if_pos hport, hnat, Int.toNat_natCast]
  · rw [if_pos (by omega), if_neg hport]

/-- A number of digits with a part in front that is not zero is larger than it. -/
theorem digitsValue_lt_append {d e : Text} (hd : 1 ≤ digitsValue d) (he : e ≠ []) :
    digitsValue d < digitsValue (d ++ e) := by
  have hlength : 0 < e.length := List.length_pos_iff.mpr he
  have hten : 10 ≤ 10 ^ e.length := Nat.le_self_pow hlength.ne' 10
  have hmul : 10 * digitsValue d ≤ 10 ^ e.length * digitsValue d := Nat.mul_le_mul_right _ hten
  rw [digitsValue_append]
  omega

/-- What is left of the port text after the cut is read as the port that the whole text is, exactly
if nothing is cut off digits, or neither is a port. -/
theorem readPort_take_eq_iff (port : Text) (n : ℕ) :
    readPort (port.take n) = portOf port ↔
      (IsDigits port ∧ port.length ≤ n) ∨ (¬ ReadsAsPort (port.take n) ∧ ¬ IsPort port) := by
  constructor
  · intro heq
    by_cases hport : IsPort port
    · -- digits of which a part is missing stand for a smaller number
      refine Or.inl ⟨hport.1, ?_⟩
      by_contra hcut
      have hdigits : IsDigits (port.take n) := fun c hc => hport.1 c (List.mem_of_mem_take hc)
      rw [readPort_of_isDigits hdigits, portOf, portOf, if_pos hport] at heq
      split at heq
      next htake =>
        have hrest : port.drop n ≠ [] := by
          rw [Ne, List.drop_eq_nil_iff]
          omega
        have hlt := digitsValue_lt_append htake.2.1 hrest
        rw [List.take_append_drop] at hlt
        have hvalue := congrArg UInt16.toNat (Option.some.inj heq)
        have hsize : digitsValue port < UInt16.size := Nat.lt_succ_of_le hport.2.2
        rw [UInt16.toNat_ofNat_of_lt' (hlt.trans hsize), UInt16.toNat_ofNat_of_lt' hsize] at hvalue
        omega
      next => cases heq
    · refine Or.inr ⟨?_, hport⟩
      rw [← readPort_eq_none_iff, heq, portOf_eq_none_iff]
      exact hport
  · rintro (⟨hdigits, hlength⟩ | ⟨hread, hport⟩)
    · rw [List.take_of_length_le hlength, readPort_of_isDigits hdigits]
    · rw [(readPort_eq_none_iff _).mpr hread, (portOf_eq_none_iff _).mpr hport]

/-! ## The input -/

/-- The first colon is where an address ends. -/
theorem eq_of_append_colon {s s' t t' : Text} (hs : ':' ∉ s) (hs' : ':' ∉ s')
    (h : s ++ ':' :: t = s' ++ ':' :: t') : s = s' ∧ t = t' := by
  obtain rfl : s = s' := by rw [← takeWhile_ne_append hs t, h, takeWhile_ne_append hs']
  exact ⟨rfl, (List.cons.inj (List.append_cancel_left h)).2⟩

/-- An address without a colon behind it. -/
theorem parseIpPort_address {input : Text} (hcolon : ':' ∉ input)
    (hlength : input.length ≤ addressBytes) :
    parseIpPort input = (inetPton input).map fun addr => (addr, tcpTaskPort) := by
  have haddress : input.takeWhile (· ≠ ':') = input := takeWhile_ne_eq_self hcolon
  simp only [parseIpPort, List.take_of_length_le hlength, haddress, List.drop_length]

/-- A text, a colon and the text of a port, of which the copy has the start. -/
theorem parseIpPort_colon {s : Text} (port : Text) (hcolon : ':' ∉ s)
    (hlength : s.length < addressBytes) :
    parseIpPort (s ++ ':' :: port)
      = (readPort (port.take (addressBytes - (s.length + 1)))).bind fun port =>
          (inetPton s).map fun addr => (addr, port) := by
  have hcopy : (s ++ ':' :: port).take addressBytes
      = s ++ ':' :: port.take (addressBytes - (s.length + 1)) := by
    obtain ⟨k, hk⟩ := Nat.exists_eq_add_of_lt hlength
    have hrest : addressBytes - s.length = addressBytes - (s.length + 1) + 1 := by omega
    rw [List.take_append, List.take_of_length_le hlength.le, hrest, List.take_succ_cons]
  have haddress : (s ++ ':' :: port.take (addressBytes - (s.length + 1))).takeWhile (· ≠ ':')
      = s := takeWhile_ne_append hcolon _
  simp only [parseIpPort, hcopy, haddress, List.drop_left, Option.bind_eq_bind]
  cases readPort (port.take (addressBytes - (s.length + 1))) <;> cases inetPton s <;> rfl

/-- Nothing else is accepted. -/
theorem exists_of_parseIpPort {input : Text} {addr : UInt32} {port : UInt16}
    (h : parseIpPort input = some (addr, port)) :
    inetPton input = some addr ∨
      ∃ s text, input = s ++ ':' :: text ∧ inetPton s = some addr := by
  set buf := input.take addressBytes with hbuf
  have hsplit : buf.takeWhile (· ≠ ':') ++ buf.dropWhile (· ≠ ':') = buf :=
    List.takeWhile_append_dropWhile
  have hdrop : buf.drop (buf.takeWhile (· ≠ ':')).length = buf.dropWhile (· ≠ ':') := by
    calc buf.drop (buf.takeWhile (· ≠ ':')).length
        = (buf.takeWhile (· ≠ ':') ++ buf.dropWhile (· ≠ ':')).drop
            (buf.takeWhile (· ≠ ':')).length := by rw [hsplit]
      _ = buf.dropWhile (· ≠ ':') := List.drop_left
  simp only [parseIpPort, ← hbuf, hdrop] at h
  split at h
  next hnil =>
    obtain ⟨_, haddr, heq⟩ := Option.map_eq_some_iff.mp h
    obtain ⟨rfl, -⟩ := Prod.mk.inj heq
    rw [hnil, List.append_nil] at hsplit
    rw [hsplit] at haddr
    -- an address is too short to be cut
    have hshort := (inetPton_eq_some haddr).2
    have hlength : buf.length = min addressBytes input.length := List.length_take
    have hwhole : buf = input := by
      apply List.take_of_length_le
      simp only [addressBytes] at hlength ⊢
      omega
    exact Or.inl (hwhole ▸ haddr)
  next c portStr hcons =>
    simp only [Option.bind_eq_bind, Option.bind_eq_some_iff] at h
    obtain ⟨_, -, _, haddr, heq⟩ := h
    obtain ⟨rfl, -⟩ := Prod.mk.inj (Option.some.inj heq)
    obtain rfl : c = ':' := by
      have hhead := List.head?_dropWhile_not (fun c => decide (c ≠ ':')) buf
      rw [hcons] at hhead
      simpa using hhead
    refine Or.inr ⟨_, portStr ++ input.drop addressBytes, ?_, haddr⟩
    rw [← List.cons_append, ← List.append_assoc, ← hcons, hsplit, hbuf, List.take_append_drop]

theorem endpoint_iff {input : Text} {addr : UInt32} {port : UInt16} :
    Endpoint input addr port ↔
      (inetPton input = some addr ∧ port = tcpTaskPort) ∨
        ∃ s text, input = s ++ ':' :: text ∧ inetPton s = some addr ∧ portOf text = some port := by
  constructor
  · intro h
    cases h with
    | address haddr => exact Or.inl ⟨haddr, rfl⟩
    | withPort haddr hport => exact Or.inr ⟨_, _, rfl, haddr, if_pos hport⟩
  · rintro (⟨haddr, rfl⟩ | ⟨s, text, rfl, haddr, hport⟩)
    · exact .address haddr
    · simp only [portOf] at hport
      split at hport
      next hisPort =>
        obtain rfl := Option.some.inj hport
        exact .withPort haddr hisPort
      next => cases hport

section Colon

variable {s text : Text} {addr : UInt32}

/-- An address stands in front of the first colon, so that it can be told from the rest. -/
theorem eq_of_address (haddr : inetPton s = some addr) {s' text' : Text}
    (h : s ++ ':' :: text = s' ++ ':' :: text') (hsome : (inetPton s').isSome) :
    s = s' ∧ text = text' := by
  obtain ⟨addr', haddr'⟩ := Option.isSome_iff_exists.mp hsome
  exact eq_of_append_colon (inetPton_eq_some haddr).1 (inetPton_eq_some haddr').1 h

theorem parseIpPort_eq_some_iff (haddr : inetPton s = some addr) (addr' : UInt32) (port : UInt16) :
    parseIpPort (s ++ ':' :: text) = some (addr', port) ↔
      addr = addr' ∧ readPort (text.take (addressBytes - (s.length + 1))) = some port := by
  obtain ⟨hcolon, hlength⟩ := inetPton_eq_some haddr
  rw [parseIpPort_colon text hcolon (lt_of_le_of_lt hlength (by decide)), haddr]
  cases readPort (text.take (addressBytes - (s.length + 1))) <;> simp [and_comm]

theorem endpoint_colon_iff (haddr : inetPton s = some addr) (addr' : UInt32) (port : UInt16) :
    Endpoint (s ++ ':' :: text) addr' port ↔ addr = addr' ∧ portOf text = some port := by
  rw [endpoint_iff]
  constructor
  · rintro (⟨hnone, -⟩ | ⟨s', text', heq, haddr', htext⟩)
    · exact absurd (inetPton_eq_some hnone).1 (by simp)
    · obtain ⟨rfl, rfl⟩ := eq_of_address haddr heq (by rw [haddr']; rfl)
      exact ⟨Option.some.inj (haddr.symm.trans haddr'), htext⟩
  · rintro ⟨rfl, htext⟩
    exact Or.inr ⟨s, text, rfl, haddr, htext⟩

/-- Behind an address it is the port that has to be read right. -/
theorem acceptsEndpoints_colon_iff (haddr : inetPton s = some addr) :
    AcceptsEndpoints (s ++ ':' :: text) ↔
      readPort (text.take (addressBytes - (s.length + 1))) = portOf text := by
  simp only [AcceptsEndpoints, parseIpPort_eq_some_iff haddr, endpoint_colon_iff haddr]
  constructor
  · intro hall
    refine Option.ext fun port => ?_
    have hsame := hall addr port
    rwa [eq_self_iff_true, true_and, true_and] at hsame
  · intro heq addr' port
    rw [heq]

theorem misreadPort_colon_iff (haddr : inetPton s = some addr) :
    MisreadPort (s ++ ':' :: text) ↔
      (ReadsAsPort (text.take (addressBytes - (s.length + 1))) ∨ IsPort text) ∧
        ¬ (IsDigits text ∧ (s ++ ':' :: text).length ≤ addressBytes) := by
  constructor
  · rintro ⟨s', text', heq, hsome, hread⟩
    obtain ⟨rfl, rfl⟩ := eq_of_address haddr heq hsome
    exact hread
  · intro hread
    exact ⟨s, text, rfl, by rw [haddr]; rfl, hread⟩

end Colon

/-- Without a colon behind an address, an input is accepted if it is an address. -/
theorem acceptsEndpoints_of_noPort {input : Text}
    (h : ¬ ∃ s text addr, input = s ++ ':' :: text ∧ inetPton s = some addr) :
    AcceptsEndpoints input := by
  -- an address has no colon and fits, so that it is read with the usual port
  have hparse : ∀ {addr}, inetPton input = some addr →
      parseIpPort input = some (addr, tcpTaskPort) := by
    intro addr haddr
    obtain ⟨hcolon, hlength⟩ := inetPton_eq_some haddr
    rw [parseIpPort_address hcolon (hlength.trans (by decide)), haddr]
    rfl
  intro addr port
  rw [endpoint_iff]
  constructor
  · intro haccepted
    rcases exists_of_parseIpPort haccepted with haddr | ⟨s, text, heq, haddr⟩
    · have hsame := (hparse haddr).symm.trans haccepted
      exact Or.inl ⟨haddr, (Prod.mk.inj (Option.some.inj hsame)).2.symm⟩
    · exact absurd ⟨s, text, addr, heq, haddr⟩ h
  · rintro (⟨haddr, rfl⟩ | ⟨s, text, heq, haddr, -⟩)
    · exact hparse haddr
    · exact absurd ⟨s, text, addr, heq, haddr⟩ h

/-- The input is accepted as the endpoint that it is, and only then, exactly if it is not an address
with a port that is misread. -/
theorem acceptsEndpoints_iff (input : Text) : AcceptsEndpoints input ↔ ¬ MisreadPort input := by
  by_cases hport : ∃ s text addr, input = s ++ ':' :: text ∧ inetPton s = some addr
  · obtain ⟨s, text, addr, rfl, haddr⟩ := hport
    have hfits : (s ++ ':' :: text).length ≤ addressBytes ↔
        text.length ≤ addressBytes - (s.length + 1) := by
      have hshort := (inetPton_eq_some haddr).2
      rw [List.length_append, List.length_cons, addressBytes]
      omega
    rw [acceptsEndpoints_colon_iff haddr, readPort_take_eq_iff, misreadPort_colon_iff haddr, hfits,
      not_and_or, not_or, not_not, or_comm]
  · refine iff_of_true (acceptsEndpoints_of_noPort hport) ?_
    rintro ⟨s, text, rfl, hsome, -⟩
    obtain ⟨addr, haddr⟩ := Option.isSome_iff_exists.mp hsome
    exact hport ⟨s, text, addr, rfl, haddr⟩

/-- `1.2.3.4:80x` is no endpoint, but it is accepted with port 80. -/
theorem not_acceptsEndpoints_trailing :
    let input := "1.2.3.4:80x".toList
    parseIpPort input = some (67305985, 80) ∧ ¬ AcceptsEndpoints input := by
  have hinput : "1.2.3.4:80x".toList = "1.2.3.4".toList ++ ':' :: "80x".toList := by decide
  have haddr : inetPton "1.2.3.4".toList = some 67305985 := by decide +kernel
  refine ⟨by decide +kernel, ?_⟩
  have hread : readPort ("80x".toList.take (addressBytes - ("1.2.3.4".toList.length + 1)))
      = some 80 := by decide +kernel
  have hport : ¬ IsPort "80x".toList := fun h => absurd (h.1 'x' (by decide)) (by decide)
  rw [hinput, acceptsEndpoints_colon_iff haddr, hread, portOf, if_neg hport]
  exact Option.some_ne_none 80

end MonteCarlo
