import Minitalk.Log.Format

/-! # The log automaton (`char_table.c`, `singleton.c`, `action*.c`, `log.c`)

The format is read one character at a time; the function of the current state takes the character and gives the
next state. The `va_list` is the number of `va_arg` calls so far. -/

namespace Minitalk.Log
open CText

inductive FormatState where
  | normal
  | percent
  | flags
  | width
  | precision
  | length
  | specifier
  | error
deriving DecidableEq, Repr

/-- `t_parser_ctx`, without the buffer. `temp_num` is not initialised: it is set before it is read. -/
structure Scanner where
  state : FormatState := .normal
  spec : FormatSpec := {}
  tempNum : BitVec 32 := 0
  argIndex : Nat := 0
deriving DecidableEq

structure ParserCtx extends Scanner where
  buffer : TBuffer

/-! ### `char_table.c` -/

inductive CharClass where
  | digit
  | flag
  | spec
  | length
  | dot
  | percent
deriving DecidableEq

def charClassTable (c : UInt8) : CharClass → Bool
  | .digit => isDigit c
  | .flag => (cstr "-+ #0").contains c
  | .spec => (cstr "sdiuxXocpfgG").contains c
  | .length => (cstr "lhL").contains c
  | .dot => c == chr '.'
  | .percent => c == chr '%'

/-- `flag_table`, with the functions of `format_state.c`. -/
def flagTable (c : UInt8) (spec : FormatSpec) : FormatSpec :=
  if c = chr '-' then { spec with leftAlign := true }
  else if c = chr '+' then { spec with showSign := true }
  else if c = chr ' ' then { spec with spacePrefix := true }
  else if c = chr '#' then { spec with altForm := true }
  else if c = chr '0' then { spec with zeroPad := true }
  else spec

/-! ### The state actions -/

def actionNormal (ctx : ParserCtx) (c : UInt8) : FormatState × ParserCtx :=
  if c = chr '%' then (.percent, { ctx with spec := {} })
  else (.normal, { ctx with buffer := bufferAppendChar ctx.buffer c })

def handlePercentChar (ctx : ParserCtx) : FormatState × ParserCtx :=
  (.normal, { ctx with buffer := bufferAppendChar ctx.buffer (chr '%') })

def handleFlagChar (ctx : ParserCtx) (c : UInt8) : FormatState × ParserCtx :=
  (.flags, { ctx with spec := flagTable c ctx.spec })

def handleOtherChars (ctx : ParserCtx) (c : UInt8) : FormatState × ParserCtx :=
  if charClassTable c .digit then (.width, { ctx with tempNum := digitValue c })
  else if charClassTable c .dot then (.precision, { ctx with spec.hasPrecision := true, tempNum := 0 })
  else if charClassTable c .length then (.length, { ctx with spec.lengthMod := c })
  else if charClassTable c .spec then (.specifier, { ctx with spec.specifier := c })
  else (.error, ctx)

def actionPercent (ctx : ParserCtx) (c : UInt8) : FormatState × ParserCtx :=
  if charClassTable c .percent then handlePercentChar ctx
  else if charClassTable c .flag then handleFlagChar ctx c
  else handleOtherChars ctx c

def actionFlags (ctx : ParserCtx) (c : UInt8) : FormatState × ParserCtx :=
  if charClassTable c .flag then (.flags, { ctx with spec := flagTable c ctx.spec })
  else actionPercent ctx c

def actionWidth (ctx : ParserCtx) (c : UInt8) : FormatState × ParserCtx :=
  if charClassTable c .digit then (.width, { ctx with tempNum := ctx.tempNum * 10 + digitValue c })
  else
    let ctx := { ctx with spec.width := ctx.tempNum }
    if charClassTable c .dot then (.precision, { ctx with spec.hasPrecision := true, tempNum := 0 })
    else actionPercent ctx c

def actionPrecision (ctx : ParserCtx) (c : UInt8) : FormatState × ParserCtx :=
  if charClassTable c .digit then (.precision, { ctx with tempNum := ctx.tempNum * 10 + digitValue c })
  else actionPercent { ctx with spec.precision := ctx.tempNum } c

def actionLength (ctx : ParserCtx) (c : UInt8) : FormatState × ParserCtx := actionPercent ctx c

/-- The conversion that was read, with the next argument. The character that follows it is not looked at. -/
def actionSpecifier (args : VaList) (ctx : ParserCtx) (_c : UInt8) : FormatState × ParserCtx :=
  match specTable ctx.spec.specifier with
  | some action =>
    (.normal, { ctx with
      spec.specifier := action.specifier ctx.spec.specifier
      argIndex := ctx.argIndex + 1
      buffer := action.run (args ctx.argIndex) ctx.spec ctx.buffer })
  | none =>
    (.normal, { ctx with
      buffer := bufferAppendChar (bufferAppendChar ctx.buffer (chr '%')) ctx.spec.specifier })

def actionError (ctx : ParserCtx) (c : UInt8) : FormatState × ParserCtx :=
  (.normal, { ctx with buffer := bufferAppendChar (bufferAppendChar ctx.buffer (chr '%')) c })

def stateTransitionTable (args : VaList) : FormatState → ParserCtx → UInt8 → FormatState × ParserCtx
  | .normal => actionNormal
  | .percent => actionPercent
  | .flags => actionFlags
  | .width => actionWidth
  | .precision => actionPrecision
  | .length => actionLength
  | .specifier => actionSpecifier args
  | .error => actionError

/-! ### `log.c` -/

/-- The body of the loop of `ctx_parsing`: an error state is left at once. -/
def ctxStep (args : VaList) (ctx : ParserCtx) (c : UInt8) : ParserCtx :=
  let (next, ctx) := stateTransitionTable args ctx.state ctx c
  { ctx with state := if next = .error then .normal else next }

def ctxParsing (args : VaList) (ctx : ParserCtx) : List UInt8 → ParserCtx
  | [] => ctx
  | c :: cs => if ctx.buffer.pos < 1023 then ctxParsing args (ctxStep args ctx c) cs else ctx

/-- The caller's buffer is copied into the context and back. -/
def vlogMsgAutomata (fmt : CString) (args : VaList) (buffer : TBuffer) : TBuffer :=
  (ctxParsing args { buffer } fmt.1).buffer

/-- The prefix of a log level. -/
def levelString (level : Int) : List UInt8 :=
  if level = 0 then cstr "[INFO] "
  else if level = 1 then cstr "[WARNING] "
  else if level = 2 then cstr "[ERROR] "
  else if level = 3 then cstr "[DEBUG] "
  else if level = 4 then cstr "[SUCCESS] "
  else cstr "[UNKNOWN] "

def putLevelBuffered (buffer : TBuffer) (level : Int) : TBuffer := bufferAppendStr buffer (levelString level)

/-- The buffer at the end, and the length that `write` is called with; nothing when `MINITALK_DEBUG` is 0. -/
def logMsg (enabled : Bool) (level : Int) (fmt : CString) (args : VaList) : Option (TBuffer × Nat) :=
  if !enabled then none
  else
    let buffer := putLevelBuffered (Buffer.empty bufferSize) level
    let buffer := vlogMsgAutomata fmt args buffer
    let buffer := buffer.push (chr '\n')
    let buffer := buffer.store buffer.pos 0
    some (buffer, buffer.pos)

end Minitalk.Log
