import ThyristorController.Lib.TextBuffer
import Mathlib.Algebra.Group.Int.Defs
import Mathlib.Algebra.Group.Nat.Defs
import Mathlib.Data.List.Infix

/-!
# Formatted text (`src/kservice.c`)

`rt_vsnprintf` with `print_number`, configured with `RT_PRINTF_PRECISION` only. Addresses, `int` and `long` have 32
bits; arithmetic wraps. Every character goes through `put`, which stores it in front of `end` and counts it.

`text` is the text itself, without a buffer. `rtVsnprintf_eq` says that the code puts this text, and
`vsnprintf_bounds` what is then in the buffer, for every text that fits into the address space and whose length is an
`rt_int32_t`. The others are not written correctly (`length_wraps`).
-/

namespace ThyristorController.Kservice

open TextBuffer

/-! ## Flags and formats -/

/-- `ZEROPAD`. -/
def zeropad : BitVec 8 := 1

/-- `SIGN`. -/
def signFlag : BitVec 8 := 2

/-- `PLUS`. -/
def plus : BitVec 8 := 4

/-- `SPACE`. -/
def space : BitVec 8 := 8

/-- `LEFT`. -/
def left : BitVec 8 := 16

/-- `SPECIAL`. -/
def special : BitVec 8 := 32

/-- `LARGE`. -/
def large : BitVec 8 := 64

/-- A character constant. -/
def ch (c : Char) : UInt8 := c.toUInt8

/-- The characters of a string in front of its end. -/
def cString (s : List UInt8) : List UInt8 := s.takeWhile (· ≠ 0)

/-- `_ISDIGIT`. -/
def isDigit (c : UInt8) : Bool := ch '0' ≤ c && c ≤ ch '9'

/-- `skip_atoi`. -/
def skipAtoi (i : BitVec 32) : List UInt8 → BitVec 32 × List UInt8
  | [] => (i, [])
  | c :: s => if isDigit c then skipAtoi (i * 10 + BitVec.ofNat 32 c.toNat - 48) s else (i, c :: s)

/-- "process flags". -/
def scanFlags (flags : BitVec 8) : List UInt8 → BitVec 8 × List UInt8
  | [] => (flags, [])
  | c :: fmt =>
    if c = ch '-' then scanFlags (flags ||| left) fmt
    else if c = ch '+' then scanFlags (flags ||| plus) fmt
    else if c = ch ' ' then scanFlags (flags ||| space) fmt
    else if c = ch '#' then scanFlags (flags ||| special) fmt
    else if c = ch '0' then scanFlags (flags ||| zeropad) fmt
    else (flags, c :: fmt)

/-- What a format says about a width or a precision: nothing, a point only, a number, or that it is an argument. -/
inductive Field where
  | absent
  | point
  | number (n : BitVec 32)
  | star
deriving DecidableEq

/-- "get field width". -/
def scanWidth : List UInt8 → Field × List UInt8
  | [] => (.absent, [])
  | c :: fmt =>
    if isDigit c then
      let (n, fmt) := skipAtoi 0 (c :: fmt)
      (.number n, fmt)
    else if c = ch '*' then (.star, fmt)
    else (.absent, c :: fmt)

/-- "get the precision". -/
def scanPrecision : List UInt8 → Field × List UInt8
  | [] => (.absent, [])
  | c :: fmt =>
    if c = ch '.' then
      let (field, fmt) := scanWidth fmt
      (if field = .absent then .point else field, fmt)
    else (.absent, c :: fmt)

/-- "get the conversion qualifier". -/
def scanQualifier : List UInt8 → UInt8 × List UInt8
  | [] => (0, [])
  | c :: fmt => if c = ch 'h' ∨ c = ch 'l' then (c, fmt) else (0, c :: fmt)

/-- What stands behind `%`; `conv` is the conversion character, or 0 at the end of the format. -/
structure Directive where
  flags : BitVec 8
  width : Field
  precision : Field
  qualifier : UInt8
  conv : UInt8

/-- Read what stands behind `%`. -/
def directive (fmt : List UInt8) : Directive × List UInt8 :=
  let (flags, fmt) := scanFlags 0 fmt
  let (width, fmt) := scanWidth fmt
  let (precision, fmt) := scanPrecision fmt
  let (qualifier, fmt) := scanQualifier fmt
  (⟨flags, width, precision, qualifier, fmt.headD 0⟩, fmt.tail)

/-! ## Arguments -/

/-- An argument: an integer or a pointer, or a string, which may be `RT_NULL`. -/
inductive VaArg where
  | int (v : BitVec 32)
  | str (s : Option (List UInt8))

inductive ArgKind where
  | int | str
deriving DecidableEq

def VaArg.kind : VaArg → ArgKind
  | .int _ => .int
  | .str _ => .str

/-- `va_arg` of an integer; `none` where the next argument is none. -/
def vaInt : List VaArg → Option (BitVec 32 × List VaArg)
  | .int v :: args => some (v, args)
  | _ => none

/-- `va_arg` of a string. -/
def vaStr : List VaArg → Option (Option (List UInt8) × List VaArg)
  | .str s :: args => some (s, args)
  | _ => none

/-- `field_width` and `flags`. -/
def fieldWidth (flags : BitVec 8) (args : List VaArg) : Field → Option ((BitVec 32 × BitVec 8) × List VaArg)
  | .number n => some ((n, flags), args)
  | .star => (vaInt args).map fun (v, args) => (if v.slt 0 then (-v, flags ||| left) else (v, flags), args)
  | _ => some ((-1, flags), args)

/-- `precision`. -/
def precisionOf (args : List VaArg) : Field → Option (BitVec 32 × List VaArg)
  | .absent => some (-1, args)
  | .point => some (0, args)
  | .number n => some (if n.slt 0 then 0 else n, args)
  | .star => (vaInt args).map fun (v, args) => (if v.slt 0 then 0 else v, args)

/-- What the conversion does to the flags, and the base. -/
def convFlags (d : Directive) (flags : BitVec 8) : BitVec 8 :=
  if d.conv = ch 'X' then flags ||| large
  else if d.conv = ch 'd' ∨ d.conv = ch 'i' then flags ||| signFlag
  else flags

def convBase (d : Directive) : Nat :=
  if d.conv = ch 'o' then 8 else if d.conv = ch 'X' ∨ d.conv = ch 'x' then 16 else 10

/-- `num`. -/
def numArg (d : Directive) (flags : BitVec 8) (v : BitVec 32) : BitVec 32 :=
  if d.qualifier = ch 'h' then
    if flags &&& signFlag ≠ 0 then (v.setWidth 16).signExtend 32 else (v.setWidth 16).setWidth 32
  else v

/-! ## Numbers -/

/-- `divide`: the digit, and the rest. -/
def divide (n : BitVec 32) (base : Nat) : BitVec 32 × BitVec 32 :=
  if base = 10 then (n % 10, n / 10) else (n % 16, n / 16)

/-- `digits`. -/
def digitChar (type : BitVec 8) (d : BitVec 32) : UInt8 :=
  let digits := if type &&& large ≠ 0 then "0123456789ABCDEF" else "0123456789abcdef"
  (digits.toList.map ch).getD d.toNat 0

/-- The loop that fills `tmp`, which has 16 places. -/
def tmpLoop (type : BitVec 8) (base : Nat) : Nat → BitVec 32 → List UInt8
  | 0, _ => []
  | n + 1, num =>
    if num = 0 then []
    else
      let (d, num) := divide num base
      digitChar type d :: tmpLoop type base n num

/-- `tmp`, up to `i`. -/
def tmpDigits (type : BitVec 8) (base : Nat) (num : BitVec 32) : List UInt8 :=
  if num = 0 then [ch '0'] else tmpLoop type base 16 num

/-- "get sign": `sign` and `num`. -/
def getSign (type : BitVec 8) (num : BitVec 32) : UInt8 × BitVec 32 :=
  if type &&& signFlag ≠ 0 then
    if num.slt 0 then (ch '-', -num)
    else if type &&& plus ≠ 0 then (ch '+', num)
    else if type &&& space ≠ 0 then (ch ' ', num)
    else (0, num)
  else (0, num)

/-- How often `while (size-- > 0)` is run. -/
def rounds (size : BitVec 32) : Nat := size.toInt.toNat

/-- `size` behind `while (size-- > 0)`. -/
def behind (size : BitVec 32) : BitVec 32 := if (0#32).slt size then -1 else size - 1

/-- `type` behind "if (type & LEFT) type &= ~ZEROPAD". -/
def padType (type : BitVec 8) : BitVec 8 := if type &&& left ≠ 0 then type &&& ~~~ zeropad else type

/-- `print_number`. -/
def printNumber (stop : BitVec 32) (o : Out 32) (num : BitVec 32) (base : Nat) (s precision : BitVec 32)
    (type : BitVec 8) : Out 32 :=
  let type := padType type
  let c := if type &&& zeropad ≠ 0 then ch '0' else ch ' '
  let (sign, num) := getSign type num
  let tmp := tmpDigits type base num
  let i := BitVec.ofNat 32 tmp.length
  let precisionBak := precision
  let precision := if precision.slt i then i else precision
  let size := s - precision
  let (o, size) :=
    if type &&& (zeropad ||| left) = 0 then
      let size := if sign ≠ 0 ∧ (0#32).slt size then size - 1 else size
      (o.putN stop (ch ' ') (rounds size), behind size)
    else (o, size)
  let (o, size) := if sign ≠ 0 then (o.put stop sign, size - 1) else (o, size)
  let (o, size) := if type &&& left = 0 then (o.putN stop c (rounds size), behind size) else (o, size)
  let o := o.putN stop (ch '0') (precision.toInt - i.toInt).toNat
  let o := if precisionBak ≠ 0 then o.putAll stop tmp.reverse else o
  o.putN stop (ch ' ') (rounds size)

/-! ## Conversions -/

/-- How often `while (--field_width > 0)` is run, and `field_width` behind it. -/
def fill (fieldWidth : BitVec 32) : Nat × BitVec 32 :=
  let fieldWidth := fieldWidth - 1
  (rounds fieldWidth, if (0#32).slt fieldWidth then 0 else fieldWidth)

/-- `case 'c'`. -/
def printChar (stop : BitVec 32) (o : Out 32) (flags : BitVec 8) (fieldWidth v : BitVec 32) : Out 32 :=
  let (o, fieldWidth) :=
    if flags &&& left = 0 then (o.putN stop (ch ' ') (fill fieldWidth).1, (fill fieldWidth).2) else (o, fieldWidth)
  let o := o.put stop (UInt8.ofNat v.toNat)
  o.putN stop (ch ' ') (fill fieldWidth).1

/-- How often `while (len < field_width--)` is run, and `field_width` behind it. -/
def fillString (len fieldWidth : BitVec 32) : Nat × BitVec 32 :=
  ((fieldWidth.toInt - len.toInt).toNat, if len.slt fieldWidth then len - 1 else fieldWidth - 1)

/-- `len`. -/
def stringLen (precision : BitVec 32) (s : List UInt8) : BitVec 32 :=
  let len := BitVec.ofNat 32 s.length
  if (0#32).slt precision ∧ precision.slt len then precision else len

/-- `case 's'`. -/
def printString (stop : BitVec 32) (o : Out 32) (flags : BitVec 8) (fieldWidth precision : BitVec 32)
    (s : Option (List UInt8)) : Out 32 :=
  let s := cString (s.getD ("(NULL)".toList.map ch))
  let len := stringLen precision s
  let (o, fieldWidth) :=
    if flags &&& left = 0 then (o.putN stop (ch ' ') (fillString len fieldWidth).1, (fillString len fieldWidth).2)
    else (o, fieldWidth)
  let o := o.putAll stop (s.take (rounds len))
  o.putN stop (ch ' ') (fillString len fieldWidth).1

/-- `case 'p'`. -/
def printPointer (stop : BitVec 32) (o : Out 32) (flags : BitVec 8) (fieldWidth precision v : BitVec 32) : Out 32 :=
  if fieldWidth = -1 then printNumber stop o v 16 8 precision (flags ||| zeropad)
  else printNumber stop o v 16 fieldWidth precision flags

/-- The conversions of integers. -/
def isInteger (d : Directive) : Bool :=
  d.conv = ch 'o' || d.conv = ch 'X' || d.conv = ch 'x' || d.conv = ch 'd' || d.conv = ch 'i' || d.conv = ch 'u'

/-- The switch over the conversion character. -/
def convert (stop : BitVec 32) (o : Out 32) (d : Directive) (args : List VaArg) : Option (Out 32 × List VaArg) :=
  (fieldWidth d.flags args d.width).bind fun ((width, flags), args) =>
    (precisionOf args d.precision).bind fun (precision, args) =>
      if d.conv = ch 'c' then (vaInt args).map fun (v, args) => (printChar stop o flags width v, args)
      else if d.conv = ch 's' then (vaStr args).map fun (s, args) => (printString stop o flags width precision s, args)
      else if d.conv = ch 'p' then
        (vaInt args).map fun (v, args) => (printPointer stop o flags width precision v, args)
      else if d.conv = ch '%' then some (o.put stop (ch '%'), args)
      else if isInteger d then
        let flags := convFlags d flags
        (vaInt args).map fun (v, args) =>
          (printNumber stop o (numArg d flags v) (convBase d) width precision flags, args)
      else
        let o := o.put stop (ch '%')
        some (if d.conv ≠ 0 then o.put stop d.conv else o, args)

/-- The loop of `rt_vsnprintf`; `none` where an argument does not match. -/
def vsnLoop (stop : BitVec 32) : Nat → List UInt8 → List VaArg → Out 32 → Option (Out 32)
  | 0, _, _, _ => none
  | _ + 1, [], _, o => some o
  | n + 1, c :: fmt, args, o =>
    if c ≠ ch '%' then vsnLoop stop n fmt args (o.put stop c)
    else
      let (d, fmt) := directive fmt
      (convert stop o d args).bind fun (o, args) => vsnLoop stop n fmt args o

/-- `rt_vsnprintf`, with the memory behind it and its result. -/
def rtVsnprintf (m : BitVec 32 → UInt8) (buf size : BitVec 32) (fmt : List UInt8) (args : List VaArg) :
    Option (Out 32 × BitVec 32) :=
  let fmt := cString fmt
  let stop := buf + size
  -- make sure end is always >= buf
  let (stop, size) := if stop < buf then (-1, -1 - buf) else (stop, size)
  (vsnLoop stop (fmt.length + 1) fmt args { mem := m, str := buf, stored := [] }).map fun o =>
    (if 0 < size then if o.str < stop then o.store o.str 0 else o.store (stop - 1) 0 else o, o.str - buf)

/-! ## The text -/

/-- What `print_number` writes. -/
def numberText (num : BitVec 32) (base : Nat) (s precision : BitVec 32) (type : BitVec 8) : List UInt8 :=
  let type := padType type
  let c := if type &&& zeropad ≠ 0 then ch '0' else ch ' '
  let (sign, num) := getSign type num
  let digits := tmpDigits type base num
  let i := BitVec.ofNat 32 digits.length
  let length := if precision.slt i then i else precision
  let size := s - length
  let (blanks, size) :=
    if type &&& (zeropad ||| left) = 0 then
      let size := if sign ≠ 0 ∧ (0#32).slt size then size - 1 else size
      (rounds size, behind size)
    else (0, size)
  let (signs, size) := if sign ≠ 0 then ([sign], size - 1) else ([], size)
  let (pads, size) := if type &&& left = 0 then (rounds size, behind size) else (0, size)
  List.replicate blanks (ch ' ') ++ signs ++ List.replicate pads c ++
    List.replicate (length.toInt - i.toInt).toNat (ch '0') ++ (if precision ≠ 0 then digits.reverse else []) ++
    List.replicate (rounds size) (ch ' ')

/-- What `%c` writes. -/
def charText (flags : BitVec 8) (fieldWidth v : BitVec 32) : List UInt8 :=
  let (blanks, fieldWidth) := if flags &&& left = 0 then fill fieldWidth else (0, fieldWidth)
  List.replicate blanks (ch ' ') ++ [UInt8.ofNat v.toNat] ++ List.replicate (fill fieldWidth).1 (ch ' ')

/-- What `%s` writes. -/
def stringText (flags : BitVec 8) (fieldWidth precision : BitVec 32) (s : Option (List UInt8)) : List UInt8 :=
  let s := cString (s.getD ("(NULL)".toList.map ch))
  let len := stringLen precision s
  let (blanks, fieldWidth) := if flags &&& left = 0 then fillString len fieldWidth else (0, fieldWidth)
  List.replicate blanks (ch ' ') ++ s.take (rounds len) ++ List.replicate (fillString len fieldWidth).1 (ch ' ')

/-- What `%p` writes. -/
def pointerText (flags : BitVec 8) (fieldWidth precision v : BitVec 32) : List UInt8 :=
  if fieldWidth = -1 then numberText v 16 8 precision (flags ||| zeropad)
  else numberText v 16 fieldWidth precision flags

/-- What a directive writes. -/
def convertText (d : Directive) (args : List VaArg) : Option (List UInt8 × List VaArg) :=
  (fieldWidth d.flags args d.width).bind fun ((width, flags), args) =>
    (precisionOf args d.precision).bind fun (precision, args) =>
      if d.conv = ch 'c' then (vaInt args).map fun (v, args) => (charText flags width v, args)
      else if d.conv = ch 's' then (vaStr args).map fun (s, args) => (stringText flags width precision s, args)
      else if d.conv = ch 'p' then (vaInt args).map fun (v, args) => (pointerText flags width precision v, args)
      else if d.conv = ch '%' then some ([ch '%'], args)
      else if isInteger d then
        let flags := convFlags d flags
        (vaInt args).map fun (v, args) => (numberText (numArg d flags v) (convBase d) width precision flags, args)
      else some (if d.conv ≠ 0 then [ch '%', d.conv] else [ch '%'], args)

def textLoop : Nat → List UInt8 → List VaArg → Option (List UInt8)
  | 0, _, _ => none
  | _ + 1, [], _ => some []
  | n + 1, c :: fmt, args =>
    if c ≠ ch '%' then (textLoop n fmt args).map (c :: ·)
    else
      let (d, fmt) := directive fmt
      (convertText d args).bind fun (l, args) => (textLoop n fmt args).map (l ++ ·)

/-- The text of a format with its arguments, without a buffer. -/
def text (fmt : List UInt8) (args : List VaArg) : Option (List UInt8) :=
  textLoop ((cString fmt).length + 1) (cString fmt) args

section digits

variable {type : BitVec 8} {base n k : Nat} {num : BitVec 32}

theorem divide_rest (num : BitVec 32) (base : Nat) : (divide num base).2.toNat ≤ num.toNat / 10 := by
  unfold divide
  split_ifs
  · exact Nat.le_of_eq (BitVec.toNat_udiv ..)
  · show (num / 16).toNat ≤ _
    rw [BitVec.toNat_udiv]
    exact Nat.div_le_div_left (by decide) (by decide)

theorem tmpLoop_enough (h : num.toNat < 10 ^ n) : tmpLoop type base (n + k) num = tmpLoop type base n num := by
  induction n generalizing num with
  | zero =>
    have hzero : num = 0 := BitVec.eq_of_toNat_eq (Nat.lt_one_iff.mp h)
    cases k with
    | zero => rfl
    | succ k =>
      rw [Nat.zero_add]
      exact if_pos hzero
  | succ n ih =>
    rw [Nat.add_right_comm, tmpLoop, tmpLoop]
    by_cases hz : num = 0
    · rw [if_pos hz, if_pos hz]
    · rw [if_neg hz, if_neg hz]
      have hrest := divide_rest num base
      have hdiv : num.toNat / 10 < 10 ^ n := Nat.div_lt_of_lt_mul (by rw [Nat.mul_comm, ← Nat.pow_succ]; exact h)
      dsimp only
      rw [ih (by omega)]

theorem length_tmpLoop : (tmpLoop type base n num).length ≤ n := by
  induction n generalizing num with
  | zero => exact Nat.le_refl 0
  | succ n ih =>
    rw [tmpLoop]
    split_ifs
    · exact Nat.zero_le _
    · exact Nat.succ_le_succ ih

/-- A number has at most ten digits: `tmp` is never written past its end. -/
theorem length_tmpDigits (type : BitVec 8) (base : Nat) (num : BitVec 32) :
    (tmpDigits type base num).length ≤ 10 := by
  have hlt := num.isLt
  rw [tmpDigits]
  split_ifs
  · exact (by decide : 1 ≤ 10)
  · rw [show 16 = 10 + 6 from rfl, tmpLoop_enough (hlt.trans (by decide))]
    exact length_tmpLoop

end digits

section loop

variable {stop : BitVec 32} {o : Out 32} {d : Directive} {args : List VaArg} {flags type : BitVec 8}
  {width precision v num : BitVec 32} {base n : Nat}

theorem printNumber_eq : printNumber stop o num base width precision type =
    o.putAll stop (numberText num base width precision type) := by
  unfold printNumber numberText
  dsimp only
  generalize padType type = type
  generalize getSign type num = sn
  generalize tmpDigits type base sn.2 = digits
  generalize width - _ = size
  simp only [putAll_append, putN_eq]
  by_cases hpad : type &&& (zeropad ||| left) = 0 <;> by_cases hsign : sn.1 ≠ 0 <;>
    by_cases hleft : type &&& left = 0 <;> by_cases hprec : precision ≠ 0 <;>
    simp only [hpad, hsign, hleft, hprec, if_true, if_false, putAll_nil, putAll_cons, List.replicate_zero,
      ne_eq, not_false_eq_true, true_and, false_and]

theorem printChar_eq : printChar stop o flags width v = o.putAll stop (charText flags width v) := by
  unfold printChar charText
  by_cases hleft : flags &&& left = 0
  · simp only [if_pos hleft, putAll_append, putN_eq]
    rfl
  · simp only [if_neg hleft, putAll_append, putN_eq]
    rfl

theorem printString_eq {s : Option (List UInt8)} : printString stop o flags width precision s =
    o.putAll stop (stringText flags width precision s) := by
  unfold printString stringText
  by_cases hleft : flags &&& left = 0
  · simp only [if_pos hleft, putAll_append, putN_eq]
  · simp only [if_neg hleft, putAll_append, putN_eq]
    rfl

theorem printPointer_eq : printPointer stop o flags width precision v =
    o.putAll stop (pointerText flags width precision v) := by
  unfold printPointer pointerText
  by_cases hw : width = -1
  · rw [if_pos hw, if_pos hw, printNumber_eq]
  · rw [if_neg hw, if_neg hw, printNumber_eq]

/-- Put the text of a directive. -/
def putPair (stop : BitVec 32) (o : Out 32) (r : List UInt8 × List VaArg) : Out 32 × List VaArg :=
  (o.putAll stop r.1, r.2)

theorem convert_eq : convert stop o d args = (convertText d args).map (putPair stop o) := by
  unfold convert convertText
  rw [Option.map_bind]
  congr 1
  funext ⟨⟨width, flags⟩, args⟩
  dsimp only [Function.comp_apply]
  rw [Option.map_bind]
  congr 1
  funext ⟨precision, args⟩
  dsimp only [Function.comp_apply]
  split_ifs
  · simp only [Option.map_map, Function.comp_def, putPair, printChar_eq]
  · simp only [Option.map_map, Function.comp_def, putPair, printString_eq]
  · simp only [Option.map_map, Function.comp_def, putPair, printPointer_eq]
  · rfl
  · simp only [Option.map_map, Function.comp_def, putPair, printNumber_eq]
  · rfl
  · rfl

theorem vsnLoop_eq {fmt : List UInt8} :
    vsnLoop stop n fmt args o = (textLoop n fmt args).map (o.putAll stop) := by
  induction n generalizing fmt args o with
  | zero => rfl
  | succ n ih =>
    cases fmt with
    | nil => rfl
    | cons c fmt =>
      rw [vsnLoop, textLoop]
      by_cases hc : c ≠ ch '%'
      · rw [if_pos hc, if_pos hc, ih, Option.map_map]
        rfl
      · rw [if_neg hc, if_neg hc]
        dsimp only
        rw [convert_eq, Option.bind_map, Option.map_bind]
        congr 1
        funext ⟨l, args⟩
        simp only [Function.comp_apply, putPair, ih, Option.map_map]
        congr 1
        funext l'
        exact (putAll_append l l').symm

end loop

/-! ## Matching arguments -/

/-- The arguments that a directive takes. -/
def Directive.kinds (d : Directive) : List ArgKind :=
  (if d.width = .star then [.int] else []) ++ (if d.precision = .star then [.int] else []) ++
    if d.conv = ch 's' then [.str]
    else if d.conv = ch 'c' ∨ d.conv = ch 'p' ∨ isInteger d then [.int]
    else []

/-- The arguments that a format takes. -/
def kindsLoop : Nat → List UInt8 → List ArgKind
  | 0, _ => []
  | _ + 1, [] => []
  | n + 1, c :: fmt =>
    if c ≠ ch '%' then kindsLoop n fmt
    else (directive fmt).1.kinds ++ kindsLoop n (directive fmt).2

/-- The argument list begins with the arguments that the format takes. -/
def Matches (fmt : List UInt8) (args : List VaArg) : Prop :=
  kindsLoop ((cString fmt).length + 1) (cString fmt) <+: args.map VaArg.kind

instance (fmt : List UInt8) (args : List VaArg) : Decidable (Matches fmt args) :=
  inferInstanceAs (Decidable (_ <+: _))

section matching

variable {args : List VaArg} {ks : List ArgKind} {d : Directive} {fmt : List UInt8} {n : Nat}

theorem vaInt_of_prefix (h : ArgKind.int :: ks <+: args.map VaArg.kind) :
    ∃ v args', vaInt args = some (v, args') ∧ ks <+: args'.map VaArg.kind := by
  cases args with
  | nil => exact absurd h (by simp)
  | cons a args =>
    rw [List.map_cons, List.cons_prefix_cons] at h
    cases a with
    | int v => exact ⟨v, args, rfl, h.2⟩
    | str s => exact absurd h.1 (by simp [VaArg.kind])

theorem vaStr_of_prefix (h : ArgKind.str :: ks <+: args.map VaArg.kind) :
    ∃ s args', vaStr args = some (s, args') ∧ ks <+: args'.map VaArg.kind := by
  cases args with
  | nil => exact absurd h (by simp)
  | cons a args =>
    rw [List.map_cons, List.cons_prefix_cons] at h
    cases a with
    | int v => exact absurd h.1 (by simp [VaArg.kind])
    | str s => exact ⟨s, args, rfl, h.2⟩

theorem fieldWidth_of_prefix (flags : BitVec 8) (field : Field)
    (h : (if field = .star then [ArgKind.int] else []) ++ ks <+: args.map VaArg.kind) :
    ∃ r args', fieldWidth flags args field = some (r, args') ∧ ks <+: args'.map VaArg.kind := by
  cases field with
  | star =>
    obtain ⟨v, args', hv, hks⟩ := vaInt_of_prefix h
    exact ⟨_, args', Option.map_eq_some_iff.mpr ⟨_, hv, rfl⟩, hks⟩
  | absent | point | number n => exact ⟨_, args, rfl, h⟩

theorem precisionOf_of_prefix (field : Field)
    (h : (if field = .star then [ArgKind.int] else []) ++ ks <+: args.map VaArg.kind) :
    ∃ r args', precisionOf args field = some (r, args') ∧ ks <+: args'.map VaArg.kind := by
  cases field with
  | star =>
    obtain ⟨v, args', hv, hks⟩ := vaInt_of_prefix h
    exact ⟨_, args', Option.map_eq_some_iff.mpr ⟨_, hv, rfl⟩, hks⟩
  | absent | point | number n => exact ⟨_, args, rfl, h⟩

theorem convertText_of_prefix (h : d.kinds ++ ks <+: args.map VaArg.kind) :
    ∃ l args', convertText d args = some (l, args') ∧ ks <+: args'.map VaArg.kind := by
  rw [Directive.kinds, List.append_assoc, List.append_assoc] at h
  obtain ⟨⟨width, flags⟩, args₁, hwidth, h₁⟩ := fieldWidth_of_prefix d.flags d.width h
  obtain ⟨precision, args₂, hprec, h₂⟩ := precisionOf_of_prefix d.precision h₁
  unfold convertText
  rw [hwidth, Option.bind_some]
  dsimp only
  rw [hprec, Option.bind_some]
  dsimp only
  by_cases hs : d.conv = ch 's'
  · rw [if_pos hs] at h₂
    obtain ⟨s, args₃, harg, h₃⟩ := vaStr_of_prefix h₂
    have hc : d.conv ≠ ch 'c' := by
      rw [hs]
      decide
    rw [if_neg hc, if_pos hs, harg]
    exact ⟨_, args₃, rfl, h₃⟩
  · rw [if_neg hs] at h₂ ⊢
    by_cases hint : d.conv = ch 'c' ∨ d.conv = ch 'p' ∨ isInteger d
    · rw [if_pos hint] at h₂
      obtain ⟨v, args₃, harg, h₃⟩ := vaInt_of_prefix h₂
      rw [harg]
      by_cases hc : d.conv = ch 'c'
      · rw [if_pos hc]
        exact ⟨_, args₃, rfl, h₃⟩
      by_cases hp : d.conv = ch 'p'
      · rw [if_neg hc, if_pos hp]
        exact ⟨_, args₃, rfl, h₃⟩
      have hnum : isInteger d = true := (hint.resolve_left hc).resolve_left hp
      have hpct : d.conv ≠ ch '%' := fun he => by
        rw [isInteger, he] at hnum
        exact absurd hnum (by decide)
      rw [if_neg hc, if_neg hp, if_neg hpct, if_pos hnum]
      exact ⟨_, args₃, rfl, h₃⟩
    · rw [if_neg hint] at h₂
      obtain ⟨hc, hint⟩ := not_or.mp hint
      obtain ⟨hp, hnum⟩ := not_or.mp hint
      rw [if_neg hc, if_neg hp, if_neg hnum]
      by_cases hpct : d.conv = ch '%'
      · rw [if_pos hpct]
        exact ⟨_, args₂, rfl, h₂⟩
      · rw [if_neg hpct]
        exact ⟨_, args₂, rfl, h₂⟩

theorem length_skipAtoi (i : BitVec 32) (s : List UInt8) : (skipAtoi i s).2.length ≤ s.length := by
  induction s generalizing i with
  | nil => exact Nat.le_refl 0
  | cons c s ih =>
    rw [skipAtoi]
    split_ifs
    · exact (ih _).trans (Nat.le_succ _)
    · exact Nat.le_refl _

theorem length_scanFlags (flags : BitVec 8) (fmt : List UInt8) : (scanFlags flags fmt).2.length ≤ fmt.length := by
  induction fmt generalizing flags with
  | nil => exact Nat.le_refl 0
  | cons c fmt ih =>
    rw [scanFlags]
    split_ifs
    all_goals first | exact (ih _).trans (Nat.le_succ _) | exact Nat.le_refl _

theorem length_scanWidth (fmt : List UInt8) : (scanWidth fmt).2.length ≤ fmt.length := by
  cases fmt with
  | nil => exact Nat.le_refl 0
  | cons c fmt =>
    rw [scanWidth]
    split_ifs
    · exact length_skipAtoi 0 (c :: fmt)
    · exact Nat.le_succ _
    · exact Nat.le_refl _

theorem length_scanPrecision (fmt : List UInt8) : (scanPrecision fmt).2.length ≤ fmt.length := by
  cases fmt with
  | nil => exact Nat.le_refl 0
  | cons c fmt =>
    rw [scanPrecision]
    split_ifs
    · exact (length_scanWidth fmt).trans (Nat.le_succ _)
    · exact Nat.le_refl _

theorem length_scanQualifier (fmt : List UInt8) : (scanQualifier fmt).2.length ≤ fmt.length := by
  cases fmt with
  | nil => exact Nat.le_refl 0
  | cons c fmt =>
    rw [scanQualifier]
    split_ifs
    · exact Nat.le_succ _
    · exact Nat.le_refl _

theorem length_directive (fmt : List UInt8) : (directive fmt).2.length ≤ fmt.length := by
  have h₁ := length_scanFlags 0 fmt
  have h₂ := length_scanWidth (scanFlags 0 fmt).2
  have h₃ := length_scanPrecision (scanWidth (scanFlags 0 fmt).2).2
  have h₄ := length_scanQualifier (scanPrecision (scanWidth (scanFlags 0 fmt).2).2).2
  show (scanQualifier (scanPrecision (scanWidth (scanFlags 0 fmt).2).2).2).2.tail.length ≤ fmt.length
  rw [List.length_tail]
  omega

theorem textLoop_of_prefix (hn : fmt.length < n) (h : kindsLoop n fmt <+: args.map VaArg.kind) :
    ∃ l, textLoop n fmt args = some l := by
  induction n generalizing fmt args with
  | zero => omega
  | succ n ih =>
    cases fmt with
    | nil => exact ⟨[], rfl⟩
    | cons c fmt =>
      rw [List.length_cons] at hn
      rw [kindsLoop] at h
      rw [textLoop]
      by_cases hc : c ≠ ch '%'
      · rw [if_pos hc] at h ⊢
        obtain ⟨l, hl⟩ := ih (by omega) h
        exact ⟨c :: l, by rw [hl]; rfl⟩
      · rw [if_neg hc] at h ⊢
        obtain ⟨l, args', hconv, hrest⟩ := convertText_of_prefix h
        have hlen := length_directive fmt
        obtain ⟨l', hl'⟩ := ih (by omega) hrest
        refine ⟨l ++ l', ?_⟩
        dsimp only
        rw [hconv, Option.bind_some]
        dsimp only
        rw [hl']
        rfl

theorem text_of_matches (h : Matches fmt args) : ∃ l, text fmt args = some l :=
  textLoop_of_prefix (Nat.lt_succ_self _) h

end matching

/-! ## The buffer -/

section buffer

variable {m : BitVec 32 → UInt8} {buf size : BitVec 32} {fmt : List UInt8} {args : List VaArg} {l : List UInt8}

/-- `end` and `size` behind "Make sure end is always >= buf". -/
def bounds (buf size : BitVec 32) : BitVec 32 × BitVec 32 :=
  if buf + size < buf then (-1, -1 - buf) else (buf + size, size)

/-- The code puts the text, and a null character at its end or at the end of the buffer. -/
theorem rtVsnprintf_eq : rtVsnprintf m buf size fmt args = (text fmt args).map fun l =>
    let (stop, size) := bounds buf size
    let o := Out.putAll stop { mem := m, str := buf, stored := [] } l
    (if 0 < size then if o.str < stop then o.store o.str 0 else o.store (stop - 1) 0 else o, o.str - buf) := by
  unfold rtVsnprintf bounds
  dsimp only
  rw [vsnLoop_eq, Option.map_map]
  rfl

/-- `end` is `size` behind `buf`, and in front of the last address if `size` is cut. -/
theorem bounds_spec (buf size : BitVec 32) :
    (bounds buf size).1.toNat = buf.toNat + (bounds buf size).2.toNat ∧
    (bounds buf size).2.toNat ≤ size.toNat ∧
    ((bounds buf size).2 = size ∨ (bounds buf size).1.toNat = 2 ^ 32 - 1) := by
  unfold bounds
  split_ifs with h
  · refine ⟨?_, ?_, .inr rfl⟩
    · bv_omega
    · bv_omega
  · refine ⟨?_, Nat.le_refl _, .inl rfl⟩
    bv_omega

/-- The text fits into the address space with a null character behind it, and its length is an `rt_int32_t`. -/
def Fits (buf : BitVec 32) (l : List UInt8) : Prop := l.length < 2 ^ 31 ∧ buf.toNat + l.length + 1 < 2 ^ 32

instance (buf : BitVec 32) (l : List UInt8) : Decidable (Fits buf l) := inferInstanceAs (Decidable (_ ∧ _))

/-- The address of the null character. -/
def nulAddr (stop : BitVec 32) (o : Out 32) : BitVec 32 := if o.str < stop then o.str else stop - 1

/-- The null character stands behind the text, or on the last place of the buffer. -/
theorem nulAddr_toNat {stop n : BitVec 32} {o : Out 32} (hstr : o.str.toNat = buf.toNat + l.length) (hn : 0 < n)
    (hstop : stop.toNat = buf.toNat + n.toNat) :
    (nulAddr stop o).toNat = buf.toNat + min l.length (n.toNat - 1) := by
  have hpos : 0 < n.toNat := hn
  have hlt := stop.isLt
  unfold nulAddr
  by_cases h : o.str < stop
  · rw [if_pos h, hstr]
    have h' : o.str.toNat < stop.toNat := h
    omega
  · rw [if_neg h]
    have h' : ¬ o.str.toNat < stop.toNat := h
    have hsub : (stop - 1).toNat = stop.toNat - 1 := by bv_omega
    omega

theorem addr_eq (buf : BitVec 32) (i : Nat) : BitVec.ofNat 32 (buf.toNat + i) = buf + BitVec.ofNat 32 i := by
  rw [BitVec.ofNat_add, BitVec.ofNat_toNat, BitVec.setWidth_eq]

/-- What a text leaves in the buffer, as long as the address behind it does not wrap. -/
theorem rtVsnprintf_spec (m : BitVec 32 → UInt8) (buf size : BitVec 32) (hl : text fmt args = some l)
    (hroom : buf.toNat + l.length + 1 < 2 ^ 32) :
    ∃ o, rtVsnprintf m buf size fmt args = some (o, BitVec.ofNat 32 l.length) ∧
      (∀ a ∈ o.stored, buf.toNat ≤ a.toNat ∧ a.toNat < buf.toNat + size.toNat) ∧
      (∀ a ∉ o.stored, o.mem a = m a) ∧
      (∀ i (hi : i < l.length), i + 1 < size.toNat → o.mem (buf + BitVec.ofNat 32 i) = l[i]) ∧
      (0 < size → o.mem (buf + BitVec.ofNat 32 (min l.length (size.toNat - 1))) = 0) := by
  rw [rtVsnprintf_eq, hl, Option.map_some]
  obtain ⟨hstop, hle, hcut⟩ := bounds_spec buf size
  dsimp only
  generalize (bounds buf size).1 = stop at hstop hcut
  generalize (bounds buf size).2 = n at hstop hle hcut
  -- the writer behind the text
  have hwrote : Wrote m buf stop l _ := wrote_putAll m (show buf.toNat + l.length < 2 ^ 32 by omega)
  generalize Out.putAll stop { mem := m, str := buf, stored := [] } l = o at hwrote
  have hstr := hwrote.str
  have hret : o.str - buf = BitVec.ofNat 32 l.length := by
    apply BitVec.eq_of_toNat_eq
    rw [BitVec.toNat_ofNat, Nat.mod_eq_of_lt (show l.length < 2 ^ 32 by omega)]
    bv_omega
  rw [hret]
  by_cases hn : 0 < n
  · -- the null character is behind what is kept of the text
    have hz := nulAddr_toNat hstr hn hstop
    have hmin : min l.length (n.toNat - 1) = min l.length (size.toNat - 1) := by
      rcases hcut with rfl | hcut
      · rfl
      · omega
    have hzaddr : buf + BitVec.ofNat 32 (min l.length (size.toNat - 1)) = nulAddr stop o := by
      rw [← hmin, ← addr_eq, ← hz, BitVec.ofNat_toNat, BitVec.setWidth_eq]
    have hpos : 0 < n.toNat := hn
    refine ⟨o.store (nulAddr stop o) 0, ?_, fun a ha => ?_, fun a ha => ?_, fun i hi hlt => ?_, fun _ => ?_⟩
    · rw [if_pos hn, nulAddr]
      split_ifs <;> rfl
    · rcases List.mem_cons.mp ha with rfl | ha
      · omega
      · have := hwrote.stored a ha
        omega
    · rw [store_mem_of_ne (List.ne_of_not_mem_cons ha)]
      exact hwrote.kept a (List.not_mem_of_not_mem_cons ha)
    · have hne : buf + BitVec.ofNat 32 i ≠ nulAddr stop o := fun he => by
        have hnat := congrArg BitVec.toNat he
        rw [← addr_eq, BitVec.toNat_ofNat, Nat.mod_eq_of_lt (by omega), hz] at hnat
        omega
      rw [store_mem_of_ne hne, ← addr_eq]
      exact hwrote.mem i hi (by omega)
    · rw [hzaddr]
      exact store_mem_self _ _ _
  · have hn0 : n.toNat = 0 := Nat.eq_zero_of_not_pos hn
    have hsize : size = n := by
      rcases hcut with hcut | hcut
      · exact hcut.symm
      · omega
    subst hsize
    refine ⟨o, ?_, fun a ha => ?_, hwrote.kept, fun i hi hlt => by omega, fun h => absurd h hn⟩
    · rw [if_neg hn]
    · have := hwrote.stored a ha
      omega

/-- For every format, every argument list that matches it and every buffer: if the text fits into the address space,
its length is returned, only places of the buffer are written to, and they hold the first characters of the text and
a null character. -/
theorem vsnprintf_bounds (m : BitVec 32 → UInt8) (buf size : BitVec 32) (hmatch : Matches fmt args) :
    ∃ l, text fmt args = some l ∧ (Fits buf l → ∃ o ret, rtVsnprintf m buf size fmt args = some (o, ret) ∧
      ret.toInt = l.length ∧
      (∀ a ∈ o.stored, buf.toNat ≤ a.toNat ∧ a.toNat < buf.toNat + size.toNat) ∧
      (∀ a ∉ o.stored, o.mem a = m a) ∧
      (∀ i (hi : i < l.length), i + 1 < size.toNat → o.mem (buf + BitVec.ofNat 32 i) = l[i]) ∧
      (0 < size → o.mem (buf + BitVec.ofNat 32 (min l.length (size.toNat - 1))) = 0)) := by
  obtain ⟨l, hl⟩ := text_of_matches hmatch
  refine ⟨l, hl, fun ⟨hlen, hroom⟩ => ?_⟩
  obtain ⟨o, heq, hspec⟩ := rtVsnprintf_spec m buf size hl hroom
  have hnat : (BitVec.ofNat 32 l.length).toNat = l.length := by
    rw [BitVec.toNat_ofNat, Nat.mod_eq_of_lt (by omega)]
  have hret : (BitVec.ofNat 32 l.length).toInt = l.length := by
    rw [BitVec.toInt_eq_toNat_of_lt (by omega), hnat]
  exact ⟨o, _, heq, hret, hspec⟩

/-- The size 4 keeps three characters of five, and five are counted. -/
theorem vsnprintf_bounds_run : ∃ o ret, rtVsnprintf (fun _ => 1) 0x20000000 4 ("%-3dz%c".toList.map ch)
    [.int 0xfffffff6, .int 65] = some (o, ret) ∧ ret.toInt = 5 ∧ o.mem 0x20000000 = ch '-' ∧
    o.mem 0x20000002 = ch '0' ∧ o.mem 0x20000003 = 0 := by
  obtain ⟨l, hl, h⟩ := vsnprintf_bounds (fun _ => 1) 0x20000000 4
    (show Matches ("%-3dz%c".toList.map ch) [.int 0xfffffff6, .int 65] by decide +kernel)
  obtain rfl : "-10zA".toList.map ch = l :=
    Option.some.inj ((show text _ _ = some _ by decide +kernel).symm.trans hl)
  obtain ⟨o, ret, heq, hret, -, -, hmem, hnul⟩ := h (by decide)
  exact ⟨o, ret, heq, hret, hmem 0 (by decide) (by decide), hmem 2 (by decide) (by decide), hnul (by decide)⟩

/-- A number padded to 2 ^ 31 - 1 characters and one more: the result is negative. -/
theorem length_wraps : Matches ("%2147483647dx".toList.map ch) [.int 7] ∧
    ∃ l, text ("%2147483647dx".toList.map ch) [.int 7] = some l ∧ l.length = 2 ^ 31 ∧
    ∃ o ret, rtVsnprintf (fun _ => 0) 0x20000000 0 ("%2147483647dx".toList.map ch) [.int 7] = some (o, ret) ∧
      ret.toInt = -2 ^ 31 := by
  have htext : text ("%2147483647dx".toList.map ch) [.int 7] =
      some (numberText 7 10 2147483647 (-1) 2 ++ [ch 'x']) := rfl
  have hnumber : (numberText 7 10 2147483647 (-1) 2).length = 2147483647 := by
    simp only [numberText, List.length_append, List.length_replicate]
    decide +kernel
  have hlen : (numberText 7 10 2147483647 (-1) 2 ++ [ch 'x']).length = 2 ^ 31 := by
    rw [List.length_append, hnumber]
    rfl
  obtain ⟨o, ho, -⟩ := rtVsnprintf_spec (fun _ => 0) 0x20000000 0 htext (by rw [hlen]; decide)
  refine ⟨by decide +kernel, _, htext, hlen, o, _, ho, ?_⟩
  rw [hlen]
  decide

end buffer

end ThyristorController.Kservice
