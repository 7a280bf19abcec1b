import PellOs.Fs.StringCompare

/-!
# Formatted output

`tfp_format` of `printf.c` on strings, arguments and output.  `syscall_write` passes the string of
the user program on as the format, so the string is printed literally exactly if it does not contain
the character that begins a conversion.
-/

namespace PellOs

/-! ## Numbers -/

/-- The first loop of `uli2a`, with `d` of 32 bits.  A division by zero yields zero, and as both
bases are even, `d` is zero after 32 passes at the latest. -/
def uli2aScale (num base : Nat) : Nat → Nat → Nat
  | 0, d => d
  | passes + 1, d =>
      if base ≤ num / d then uli2aScale num base passes (d * base % 2 ^ 32) else d

/-- The value of type `int` of a number. -/
def toInt32 (num : Nat) : Int := (num : Int).bmod (2 ^ 32)

/-- A character that `uli2a` stores. -/
def digitChar (dgt : Int) (uc : Bool) : UInt8 :=
  UInt8.ofNat ((dgt + if dgt < 10 then 48 else (if uc then 65 else 97) - 10) % 256).toNat

/-- The second loop of `uli2a`.  `d` has at most ten decimal digits. -/
def uli2aDigits (base : Nat) (uc : Bool) : Nat → Nat → Nat → Nat → List UInt8
  | 0, _, _, _ => []
  | passes + 1, num, n, d =>
      if d = 0 then []
      else
        let dgt := toInt32 (num / d)
        let num := num % d
        let d := d / base
        if n ≠ 0 ∨ 0 < dgt ∨ d = 0 then
          digitChar dgt uc :: uli2aDigits base uc passes num (n + 1) d
        else uli2aDigits base uc passes num n d

/-- `uli2a`. -/
def uli2a (num base : Nat) (uc : Bool) : List UInt8 :=
  uli2aDigits base uc 32 num 0 (uli2aScale num base 32 1)

/-- `li2a`, of the 64 bits of a `long`. -/
def li2a (num : Nat) : List UInt8 :=
  if 2 ^ 63 ≤ num then 0x2d :: uli2a ((wordSize - num) % wordSize) 10 false
  else uli2a num 10 false

/-- `ui2a`. -/
def ui2a (num base : Nat) (uc : Bool) : List UInt8 := uli2a (num % 2 ^ 32) base uc

/-- `i2a`, of the 32 bits of an `int`. -/
def i2a (num : Nat) : List UInt8 :=
  let num := num % 2 ^ 32
  if 2 ^ 31 ≤ num then 0x2d :: ui2a (2 ^ 32 - num) 10 false else ui2a num 10 false

/-! ## Directives -/

/-- `a2d`. -/
def a2d (ch : UInt8) : Int :=
  if 0x30 ≤ ch ∧ ch ≤ 0x39 then ch.toNat - 48
  else if 0x61 ≤ ch ∧ ch ≤ 0x66 then ch.toNat - 97 + 10
  else if 0x41 ≤ ch ∧ ch ≤ 0x46 then ch.toNat - 65 + 10
  else -1

/-- `*(fmt++)`.  Behind the last character of a string stands its terminator. -/
def nextChar : List UInt8 → UInt8 × List UInt8
  | [] => (0, [])
  | ch :: fmt => (ch, fmt)

/-- `a2i`: the character that ends the number, what follows it, and the number. -/
def a2i (base : Int) : List UInt8 → UInt8 → Int → UInt8 × List UInt8 × Int
  | fmt, ch, num =>
      if 0 ≤ a2d ch ∧ a2d ch ≤ base then
        let num := (num * base + a2d ch).bmod (2 ^ 32)
        match fmt with
        | [] => (0, [], num)
        | next :: fmt => a2i base fmt next num
      else (ch, fmt, num)

/-- What stands between `%` and the character of the conversion. -/
structure Directive where
  ch : UInt8
  lz : Bool
  lng : Bool
  w : Int

/-- The part of `tfp_format` between a `%` and the `switch`. -/
def parseDirective (fmt : List UInt8) : Directive × List UInt8 :=
  let (ch, fmt) := nextChar fmt
  let lz := ch = 0x30
  let (ch, fmt) := if lz then nextChar fmt else (ch, fmt)
  let (ch, fmt, w) := if 0x30 ≤ ch ∧ ch ≤ 0x39 then a2i 10 fmt ch 0 else (ch, fmt, 0)
  let lng := ch = 0x6c
  let (ch, fmt) := if lng then nextChar fmt else (ch, fmt)
  (⟨ch, lz, lng, w⟩, fmt)

/-! ## Output -/

/-- `n` after the first loop of `putchw`. -/
def putchwCount : List UInt8 → Int → Int
  | [], n => n
  | _ :: bf, n => if 0 < n then putchwCount bf (n - 1) else n

/-- `putchw`. -/
def putchw (n : Int) (z : Bool) (bf : List UInt8) : List UInt8 :=
  List.replicate (putchwCount bf n).toNat (if z then 0x30 else 0x20) ++ bf

/-- The characters of a buffer up to its terminator. -/
def bufferString (bf : List UInt8) : List UInt8 := bf.takeWhile (fun ch => ch ≠ 0)

/-- The string at an address, if there is a terminator behind it. -/
def stringFrom (memory : Memory) : Nat → Nat → Option (List UInt8)
  | 0, _ => none
  | count + 1, address =>
      if memory address = 0 then some []
      else (stringFrom memory count ((address + 1) % wordSize)).map (memory address :: ·)

/-- The output of a `switch` of `tfp_format` that does not abort, and the number of arguments read
so far.  An argument without a terminator is never printed to its end. -/
def convert (memory : Memory) (va : Nat → Nat) (directive : Directive) (n : Nat) :
    Option (List UInt8 × Nat) :=
  let pad (bf : List UInt8) := putchw directive.w directive.lz (bufferString bf)
  if directive.ch = 0x75 then
    some (pad (if directive.lng then uli2a (va n) 10 false else ui2a (va n) 10 false), n + 1)
  else if directive.ch = 0x64 then
    some (pad (if directive.lng then li2a (va n) else i2a (va n)), n + 1)
  else if directive.ch = 0x78 ∨ directive.ch = 0x58 then
    let uc := directive.ch = 0x58
    some (pad (if directive.lng then uli2a (va n) 16 uc else ui2a (va n) 16 uc), n + 1)
  else if directive.ch = 0x63 then some ([UInt8.ofNat (va n)], n + 1)
  else if directive.ch = 0x73 then
    (stringFrom memory wordSize (va n)).map fun string => (putchw directive.w false string, n + 1)
  else if directive.ch = 0x25 then some ([0x25], n)
  else some ([], n)

theorem length_a2i_le (base : Int) (fmt : List UInt8) (ch : UInt8) (num : Int) :
    (a2i base fmt ch num).2.1.length ≤ fmt.length := by
  induction fmt generalizing ch num with
  | nil =>
      rw [a2i]
      split_ifs <;> exact le_rfl
  | cons next fmt ih =>
      rw [a2i]
      split_ifs
      · exact Nat.le_succ_of_le (ih next _)
      · exact le_rfl

theorem length_nextChar_le (fmt : List UInt8) : (nextChar fmt).2.length ≤ fmt.length := by
  cases fmt with
  | nil => exact le_rfl
  | cons ch fmt => exact Nat.le_succ _

theorem length_parseDirective_le (fmt : List UInt8) :
    (parseDirective fmt).2.length ≤ (nextChar fmt).2.length := by
  have optional : ∀ (taken : Prop) [Decidable taken] (ch : UInt8) (rest : List UInt8),
      (if taken then nextChar rest else (ch, rest)).2.length ≤ rest.length := by
    intro taken _ ch rest
    split_ifs
    · exact length_nextChar_le rest
    · exact le_rfl
  have number : ∀ (ch : UInt8) (rest : List UInt8),
      (if 0x30 ≤ ch ∧ ch ≤ 0x39 then a2i 10 rest ch 0 else (ch, rest, 0)).2.1.length ≤
        rest.length := by
    intro ch rest
    split_ifs
    · exact length_a2i_le 10 rest ch 0
    · exact le_rfl
  rw [parseDirective]
  exact (optional _ _ _).trans ((number _ _).trans (optional _ _ _))

/-- `tfp_format`: the output and the number of arguments read. -/
def tfpFormat (memory : Memory) (va : Nat → Nat) : List UInt8 → Nat → Option (List UInt8 × Nat)
  | [], n => some ([], n)
  | ch :: fmt, n =>
      if ch = 0 then some ([], n)
      else if ch ≠ 0x25 then (tfpFormat memory va fmt n).map fun (out, n) => (ch :: out, n)
      else
        if (parseDirective fmt).1.ch = 0 then some ([], n)
        else
          match convert memory va (parseDirective fmt).1 n with
          | none => none
          | some (out, n) =>
              (tfpFormat memory va (parseDirective fmt).2 n).map fun (more, n) => (out ++ more, n)
termination_by fmt => fmt.length
decreasing_by
  · exact Nat.lt_succ_self _
  · exact Nat.lt_succ_of_le
      ((length_parseDirective_le fmt).trans (length_nextChar_le fmt))

/-- `syscall_write`: what `printf` sends to the registered function, and the arguments that it
reads. -/
def syscallWrite (memory : Memory) (va : Nat → Nat) (bufPtr : Nat) : Option (List UInt8 × Nat) :=
  (stringFrom memory wordSize bufPtr).bind fun buf => tfpFormat memory va buf 0

/-! ## Literal output -/

section Format

variable {memory : Memory} {va : Nat → Nat}

/-- A conversion that reads no argument prints at most one character. -/
theorem convert_reads {directive : Directive} {n n' : Nat} {out : List UInt8}
    (converted : convert memory va directive n = some (out, n')) :
    n < n' ∨ n' = n ∧ out.length ≤ 1 := by
  have taken : ∀ {piece : List UInt8}, some (piece, n + 1) = some (out, n') → n < n' := by
    intro piece same
    rw [← (Prod.mk.inj (Option.some.inj same)).2]
    exact Nat.lt_succ_self n
  unfold convert at converted
  split at converted
  · exact Or.inl (taken converted)
  split at converted
  · exact Or.inl (taken converted)
  split at converted
  · exact Or.inl (taken converted)
  split at converted
  · exact Or.inl (taken converted)
  split at converted
  · obtain ⟨string, -, same⟩ := Option.map_eq_some_iff.mp converted
    exact Or.inl (taken (congrArg some same))
  split at converted <;> obtain ⟨rfl, rfl⟩ := Prod.mk.inj (Option.some.inj converted)
  · exact Or.inr ⟨rfl, le_rfl⟩
  · exact Or.inr ⟨rfl, Nat.zero_le 1⟩

theorem length_parseDirective_lt {fmt : List UInt8} (present : (parseDirective fmt).1.ch ≠ 0) :
    (parseDirective fmt).2.length < fmt.length := by
  cases fmt with
  | nil => exact absurd rfl present
  | cons ch fmt => exact Nat.lt_succ_of_le (length_parseDirective_le (ch :: fmt))

/-- A run that reads no argument prints at most as many characters as the format has, and fewer if
there is a directive in it. -/
theorem tfpFormat_reads {fmt out : List UInt8} {n n' : Nat}
    (formatted : tfpFormat memory va fmt n = some (out, n')) :
    n < n' ∨ n' = n ∧ out.length ≤ fmt.length ∧
      (0x25 ∈ fmt → out.length < fmt.length) := by
  fun_induction tfpFormat memory va fmt n generalizing out n' with
  | case1 n =>
      obtain ⟨rfl, rfl⟩ := Prod.mk.inj (Option.some.inj formatted)
      exact Or.inr ⟨rfl, le_rfl, fun member => absurd member List.not_mem_nil⟩
  | case2 fmt n =>
      obtain ⟨rfl, rfl⟩ := Prod.mk.inj (Option.some.inj formatted)
      exact Or.inr ⟨rfl, Nat.zero_le _, fun _ => Nat.succ_pos _⟩
  | case3 ch fmt n nonzero literal ih =>
      obtain ⟨⟨more, after⟩, rest, same⟩ := Option.map_eq_some_iff.mp formatted
      obtain ⟨rfl, rfl⟩ := Prod.mk.inj same
      rcases ih rest with read | ⟨unread, short, shorter⟩
      · exact Or.inl read
      · refine Or.inr ⟨unread, Nat.succ_le_succ short, fun member => Nat.succ_lt_succ (shorter ?_)⟩
        exact (List.mem_cons.mp member).resolve_left (Ne.symm literal)
  | case4 ch fmt n nonzero directive abort =>
      obtain ⟨rfl, rfl⟩ := Prod.mk.inj (Option.some.inj formatted)
      exact Or.inr ⟨rfl, Nat.zero_le _, fun _ => Nat.succ_pos _⟩
  | case5 ch fmt n nonzero directive present endless => exact absurd formatted (by simp)
  | case6 ch fmt n nonzero directive present piece after converted ih =>
      obtain ⟨⟨more, last⟩, rest, same⟩ := Option.map_eq_some_iff.mp formatted
      obtain ⟨rfl, rfl⟩ := Prod.mk.inj same
      have consumed := length_parseDirective_lt present
      rcases convert_reads converted with read | ⟨rfl, piece_short⟩
      · rcases ih rest with more_read | ⟨rfl, -⟩
        · exact Or.inl (read.trans more_read)
        · exact Or.inl read
      · rcases ih rest with read | ⟨unread, short, -⟩
        · exact Or.inl read
        · have fewer : (piece ++ more).length < (ch :: fmt).length := by
            rw [List.length_append, List.length_cons]
            change more.length ≤ (parseDirective fmt).2.length at short
            omega
          exact Or.inr ⟨unread, fewer.le, fun _ => fewer⟩

theorem tfpFormat_literal {fmt : List UInt8} {n : Nat} (no_nul : 0 ∉ fmt)
    (literal : 0x25 ∉ fmt) : tfpFormat memory va fmt n = some (fmt, n) := by
  induction fmt with
  | nil => rw [tfpFormat]
  | cons ch fmt ih =>
      rw [List.mem_cons, not_or] at no_nul literal
      rw [tfpFormat, if_neg (Ne.symm no_nul.1), if_pos (Ne.symm literal.1),
        ih no_nul.2 literal.2]
      rfl

end Format

/-! ## Strings of the user -/

section Strings

variable {memory : Memory} {address i : Nat}

theorem StringAt.length_lt {string : List UInt8} (string_at : StringAt memory address string) :
    string.length < wordSize := by
  by_contra long
  have terminator := string_at.stored.get (by simp : (string ++ [0])[string.length]? = some 0)
  have inside : string.length - wordSize < string.length := by
    simp only [wordSize] at long ⊢
    omega
  have earlier := string_at.stored.get
    ((List.getElem?_append_left inside).trans (List.getElem?_eq_getElem inside))
  have same : charAt memory address (0 + (string.length - wordSize)) =
      charAt memory address (0 + string.length) := by
    simp only [charAt, wordSize] at long ⊢
    exact congrArg memory (by omega)
  rw [earlier, terminator] at same
  exact string_at.no_nul (same ▸ List.getElem_mem inside)

theorem stringFrom_stored {string : List UInt8} {count : Nat} (no_nul : 0 ∉ string)
    (stored : Memory.Stored (charAt memory address) i (string ++ [0]))
    (enough : string.length < count) :
    stringFrom memory count ((address + i) % wordSize) = some string := by
  induction string generalizing i count with
  | nil =>
      obtain ⟨count, rfl⟩ : ∃ rest, count = rest + 1 := ⟨count - 1, by omega⟩
      rw [stringFrom]
      exact if_pos stored.1
  | cons ch string ih =>
      obtain ⟨count, rfl⟩ : ∃ rest, count = rest + 1 :=
        ⟨count - 1, by rw [List.length_cons] at enough; omega⟩
      rw [List.mem_cons, not_or] at no_nul
      have first : memory ((address + i) % wordSize) = ch := stored.1
      rw [stringFrom, first, if_neg (Ne.symm no_nul.1), Nat.mod_add_mod, Nat.add_assoc,
        ih no_nul.2 stored.2 (by rw [List.length_cons] at enough; omega)]
      rfl

theorem syscallWrite_eq {va : Nat → Nat} {bufPtr : Nat} {string : List UInt8}
    (pointer_lt : bufPtr < wordSize) (string_at : StringAt memory bufPtr string) :
    syscallWrite memory va bufPtr = tfpFormat memory va string 0 := by
  have read := stringFrom_stored string_at.no_nul string_at.stored string_at.length_lt
  rw [Nat.add_zero, Nat.mod_eq_of_lt pointer_lt] at read
  rw [syscallWrite, read]
  rfl

end Strings

/-- A string of the user is printed literally, and no argument is read, if and only if there is no
`%` in it. -/
theorem syscallWrite_literal_iff {memory : Memory} (va : Nat → Nat) {bufPtr : Nat}
    {string : List UInt8} (pointer_lt : bufPtr < wordSize)
    (string_at : StringAt memory bufPtr string) :
    syscallWrite memory va bufPtr = some (string, 0) ↔ 0x25 ∉ string := by
  rw [syscallWrite_eq pointer_lt string_at]
  constructor
  · intro literal directive
    rcases tfpFormat_reads literal with read | ⟨-, -, shorter⟩
    · exact absurd read (Nat.lt_irrefl 0)
    · exact absurd (shorter directive) (Nat.lt_irrefl _)
  · exact tfpFormat_literal string_at.no_nul

/-- The string `hi` at `0x1000`, and `%x` at `0x2000`. -/
def userStrings : Memory := fun address =>
  if address = 0x1000 then 0x68 else if address = 0x1001 then 0x69
  else if address = 0x2000 then 0x25 else if address = 0x2001 then 0x78 else 0

/-- A string of letters is printed literally. -/
theorem syscallWrite_literal_letters :
    StringAt userStrings 0x1000 [0x68, 0x69] ∧
      syscallWrite userStrings (fun _ => 0xbeef) 0x1000 = some ([0x68, 0x69], 0) := by
  have string_at : StringAt userStrings 0x1000 [0x68, 0x69] :=
    ⟨⟨by decide, by decide, by decide, trivial⟩, by decide⟩
  exact ⟨string_at, (syscallWrite_literal_iff _ (by decide) string_at).mpr (by decide)⟩

/-- A conversion in the string prints a register of the kernel instead. -/
theorem syscallWrite_conversion_not_literal :
    StringAt userStrings 0x2000 [0x25, 0x78] ∧
      syscallWrite userStrings (fun _ => 0xbeef) 0x2000 =
        some ([0x62, 0x65, 0x65, 0x66], 1) ∧
      syscallWrite userStrings (fun _ => 0xbeef) 0x2000 ≠ some ([0x25, 0x78], 0) := by
  have string_at : StringAt userStrings 0x2000 [0x25, 0x78] :=
    ⟨⟨by decide, by decide, by decide, trivial⟩, by decide⟩
  have printed : syscallWrite userStrings (fun _ => 0xbeef) 0x2000 =
      some ([0x62, 0x65, 0x65, 0x66], 1) := by
    have parsed : parseDirective [0x78] = (⟨0x78, false, false, 0⟩, []) := by rfl
    have converted : convert userStrings (fun _ => 0xbeef) ⟨0x78, false, false, 0⟩ 0 =
        some ([0x62, 0x65, 0x65, 0x66], 1) := by decide
    rw [syscallWrite_eq (by decide) string_at, tfpFormat, if_neg (by decide), if_neg (by decide),
      parsed, if_neg (by decide), converted]
    simp only [tfpFormat, Option.map_some, List.append_nil]
  refine ⟨string_at, printed, ?_⟩
  rw [printed]
  decide

end PellOs
