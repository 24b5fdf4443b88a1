import PatternCompiler.Program.Resumption
import PatternCompiler.Source.Stmt

/-! The code of the operations.

`Routine.forwardCode` is what an operation does first, and `Routine.resumeCode`
what it does when it is resumed at one of its points. -/
namespace PatternCompiler

open Source

namespace Source

/-! ### Control -/

/-- Fails. -/
def fail : List Stmt := [.setBacktrack, .continueRun]

def failIf (condition : Phrase) : Stmt := .ifScope condition fail

/-- Ends the match. -/
def stop : List Stmt := [.code "r.text_pos = pos;", .code "return;"]

/-- Goes from one operation to another. On the way back there has to be room for another round. -/
def goto (target id : Nat) : List Stmt :=
  (if target ≤ id then [.code "r.ensure_storage();"] else []) ++ [.setState target, .continueRun]

/-- Undoes captures down to a depth. -/
def uncaptureTo (depth : String) : Stmt :=
  .whileScope (.plain ("r.crawl_pos() != " ++ depth)) [.code "r.uncapture();"]

/-! ### Characters -/

/-- The index of the next character. -/
def nextIndex (o : Operation) : String := if o.rightToLeft then "pos - 1" else "pos"

/-- Moves by one character. -/
def stepCode (o : Operation) : Stmt := .code (if o.rightToLeft then "pos -= 1;" else "pos += 1;")

/-- Moves by as many characters as the text says. -/
def moveCode (o : Operation) (n : String) : Stmt :=
  .code ((if o.rightToLeft then "pos -= " else "pos += ") ++ n ++ ";")

/-- The position one character back. -/
def steppedBack (o : Operation) : String := if o.rightToLeft then "pos + 1" else "pos - 1"

/-- The number of characters ahead. -/
def available (o : Operation) : String := if o.rightToLeft then "pos - beg" else "end - pos"

/-- The character at an index, as the operation sees it. -/
def read (o : Operation) (index : String) : Phrase :=
  if o.ignoreCase then [.global .culture, .text (".to_lower(r.text[" ++ index ++ "])")]
  else .plain ("r.text[" ++ index ++ "]")

def compared (ch : Phrase) (relation : String) (c : Char) : Phrase :=
  ch ++ [.text (" " ++ relation ++ " " ++ Quoted.charLiteral c)]

def inClass (ch : Phrase) (k : Nat) : Phrase :=
  .global .charInClass :: .text "(" :: ch ++ [.text ", ", .global (.classTable k), .text ")"]

/-- The character passes the test. -/
def passes (t : CharTest Nat) (ch : Phrase) : Phrase :=
  match t with
  | .one c => compared ch "==" c
  | .notone c => compared ch "!=" c
  | .set k => inClass ch k

/-- The character does not pass the test. -/
def misses (t : CharTest Nat) (ch : Phrase) : Phrase :=
  match t with
  | .one c => compared ch "!=" c
  | .notone c => compared ch "==" c
  | .set k => .text "!" :: inClass ch k

def tooFew (o : Operation) (n : String) : Phrase := .plain (available o ++ " < " ++ n)

/-! ### Single characters, literals and references -/

def testCode (o : Operation) (t : CharTest Nat) : List Stmt :=
  let atLimit := if o.rightToLeft then "pos <= beg || " else "pos >= end || "
  [failIf (.text atLimit :: misses t (read o (nextIndex o))), stepCode o]

/-- The greatest length of a literal that is compared in one condition. -/
def maxUnroll : Nat := 16

/-- The index of the character with number `i` of `n`. -/
def literalIndex (o : Operation) (n i : Nat) : String :=
  if o.rightToLeft then "pos - " ++ toString (n - i)
  else if i = 0 then "pos"
  else "pos + " ++ toString i

def literalMisses (o : Operation) (n i : Nat) : List Char → List Phrase
  | [] => []
  | c :: cs => compared (read o (literalIndex o n i)) "!=" c :: literalMisses o n (i + 1) cs

def charList (cs : List Char) : String := String.intercalate ", " (cs.map Quoted.charLiteral)

def multiCode (o : Operation) (cs : List Char) : List Stmt :=
  let n := cs.length
  let few := tooFew o (toString n)
  let compare :=
    if n ≤ maxUnroll then [failIf (.join " || " (few :: literalMisses o n 0 cs))]
    else
      let index := if o.rightToLeft then "pos - " ++ toString n ++ " + i" else "pos + i"
      [failIf few,
        .block ("for (i, &c) in [" ++ charList cs ++ "].iter().enumerate()")
          [failIf (read o index ++ [.text " != c"])]]
  compare ++ [moveCode o (toString n)]

def refCode (o : Operation) (ecma : Bool) (slot : Nat) : List Stmt :=
  let slot := toString slot
  let matched : Phrase := .plain ("r.is_matched(" ++ slot ++ ")")
  let index := if o.rightToLeft then "pos - len + i" else "pos + i"
  let compare : List Stmt :=
    [.declare "index" (.plain ("r.match_index(" ++ slot ++ ")")),
      .declare "len" (.plain ("r.match_length(" ++ slot ++ ")")),
      failIf (tooFew o "len"),
      .block "for i in 0..len"
        [failIf (read o "index + i" ++ .text " != " :: read o index)],
      moveCode o "len"]
  if ecma then [.ifScope matched compare] else [.branch matched compare fail]

/-! ### Repeated characters -/

def repCode (o : Operation) (t : CharTest Nat) (count : Nat) : List Stmt :=
  if count = 0 then []
  else
    let n := toString count
    let index := if o.rightToLeft then "pos - 1 - i" else "pos + i"
    [failIf (tooFew o n), .block ("for i in 0.." ++ n) [failIf (misses t (read o index))],
      moveCode o n]

/-- The greatest number of characters to take. -/
def limitCode (o : Operation) (max : Nat) : List Stmt :=
  let n := toString max
  [.declare "avail" (.plain (available o)),
    .declare "limit" (.plain
      (if max = unbounded then "avail"
      else "if avail < " ++ n ++ " \x7b avail \x7d else \x7b " ++ n ++ " \x7d"))]

def greedyCode (o : Operation) (t : CharTest Nat) (max tag : Nat) : List Stmt :=
  [.block ""
    (limitCode o max ++
      [.declareMut "i" (.plain "limit"),
        .whileScope (.text "i > 0 && " :: passes t (read o (nextIndex o)))
          [stepCode o, .code "i -= 1;"],
        .ifScope (.plain "limit > i")
          [.code ("r.track_push2((limit - i - 1) as isize, (" ++ steppedBack o ++ ") as isize);"),
            .pushTag tag]])]

def lazyCode (o : Operation) (max tag : Nat) : List Stmt :=
  [.block ""
    (limitCode o max ++
      [.ifScope (.plain "limit > 0")
        [.code "r.track_push2((limit - 1) as isize, pos as isize);", .pushTag tag]])]

/-- Takes the position and the number of characters left from the track. -/
def popSpan : List Stmt :=
  [.declare "p" (.plain "r.track_pop() as usize"), .declare "i" (.plain "r.track_pop()"),
    .code "pos = p;"]

/-- Gives one character back. -/
def resumeGreedyCode (o : Operation) (tag : Nat) : List Stmt :=
  popSpan ++
    .ifScope (.plain "i > 0")
      [.code ("r.track_push2(i - 1, (" ++ steppedBack o ++ ") as isize);"), .pushTag tag] ::
    goto (o.id + 1) o.id

/-- Takes one more character. -/
def resumeLazyCode (o : Operation) (t : CharTest Nat) (tag : Nat) : List Stmt :=
  popSpan ++
    failIf (misses t (read o (nextIndex o))) ::
    stepCode o ::
    .ifScope (.plain "i > 0") [.code "r.track_push2(i - 1, pos as isize);", .pushTag tag] ::
    goto (o.id + 1) o.id

/-! ### Assertions -/

/-- The condition under which an assertion fails. -/
def assertionMisses : Assertion → String
  | .bol => "pos > beg && r.text[pos - 1] != '\\n'"
  | .eol => "pos < end && r.text[pos] != '\\n'"
  | .boundary => "!r.is_boundary(pos)"
  | .nonboundary => "r.is_boundary(pos)"
  | .ecmaBoundary => "!r.is_ecma_boundary(pos)"
  | .nonEcmaBoundary => "r.is_ecma_boundary(pos)"
  | .beginning => "pos > beg"
  | .start => "pos != start"
  | .endZ => "pos + 1 < end || (pos + 1 == end && r.text[pos] != '\\n')"
  | .finish => "pos < end"

/-! ### Marks and captures -/

def pushMarkCode (value : String) : Stmt := .code ("r.stack_push(" ++ value ++ ");")

/-- Drops a mark and fails. -/
def undoMarkCode : List Stmt := .code "r.stack_pop();" :: fail

/-- Drops two marks and fails. -/
def undoMark2Code : List Stmt := .code "r.stack_pop();" :: .code "r.stack_pop();" :: fail

/-- Puts the mark from the track back and fails. -/
def redoMarkCode : List Stmt :=
  .declare "mark" (.plain "r.track_pop()") :: pushMarkCode "mark" :: fail

def slotCode : Option Nat → String
  | some s => "Some(" ++ toString s ++ ")"
  | none => "None"

def captureCode : (slot uncapture : Option Nat) → List Stmt
  | slot, some u =>
    [.code ("r.transfer_capture(" ++ slotCode slot ++ ", " ++ toString u ++ ", mark as usize, pos);")]
  | some s, none => [.code ("r.capture(" ++ toString s ++ ", mark as usize, pos);")]
  | none, none => []

def capturemarkCode (slot uncapture : Option Nat) (tag : Nat) : List Stmt :=
  (match uncapture with
    | some u => [failIf (.plain ("!r.is_matched(" ++ toString u ++ ")"))]
    | none => []) ++
    .declare "mark" (.plain "r.stack_pop()") :: captureCode slot uncapture ++
    [.code "r.track_push(mark);", .pushTag tag]

def undoCapturemarkCode (slot uncapture : Option Nat) : List Stmt :=
  .declare "mark" (.plain "r.track_pop()") :: pushMarkCode "mark" ::
    List.replicate (slot.isSome.toNat + uncapture.isSome.toNat) (.code "r.uncapture();") ++ fail

/-! ### Loops over groups -/

def branchmarkCode (id target primary secondary : Nat) : List Stmt :=
  [.declare "mark" (.plain "r.stack_pop()"),
    .ifScope (.plain "pos as isize != mark")
      (.code "r.track_push2(mark, pos as isize);" :: .pushTag primary ::
        pushMarkCode "pos as isize" :: goto target id),
    .code "r.track_push(mark);", .pushTag secondary]

/-- Leaves the loop where the last round began. -/
def resumeBranchmarkCode (id secondary : Nat) : List Stmt :=
  [.declare "p" (.plain "r.track_pop() as usize"), .declare "mark" (.plain "r.track_pop()"),
    .code "r.stack_pop();", .code "pos = p;", .code "r.track_push(mark);",
    .pushTag secondary] ++ goto (id + 1) id

def lazyBranchmarkCode (primary secondary : Nat) : List Stmt :=
  [.declare "old" (.plain "r.stack_pop()"),
    .branch (.plain "pos as isize != old")
      [.code ("r.track_push2(if old != -1 \x7b old \x7d else \x7b pos as isize \x7d, " ++
        "pos as isize);"),
        .pushTag primary]
      [pushMarkCode "old", .code "r.track_push(old);", .pushTag secondary]]

/-- Begins one more round. -/
def resumeLazyBranchmarkCode (id target secondary : Nat) : List Stmt :=
  [.declare "p" (.plain "r.track_pop()"), .declare "old" (.plain "r.track_pop()"),
    .code "r.track_push(old);", .pushTag secondary, pushMarkCode "p",
    .code "pos = p as usize;"] ++ goto target id

def undoLazyBranchmarkCode : List Stmt :=
  .code "r.stack_pop();" :: .declare "old" (.plain "r.track_pop()") :: pushMarkCode "old" :: fail

/-- Takes the counter and the mark of a loop. -/
def popCounter : List Stmt :=
  [.declare "count" (.plain "r.stack_pop()"), .declare "mark" (.plain "r.stack_pop()")]

def branchcountCode (id target limit primary secondary : Nat) : List Stmt :=
  popCounter ++
    [.branch
      (.plain ("count >= " ++ toString limit ++ " || (pos as isize == mark && count >= 0)"))
      [.code "r.track_push2(mark, count);", .pushTag secondary]
      (.code "r.track_push(mark);" :: .pushTag primary ::
        .code "r.stack_push2(pos as isize, count + 1);" :: goto target id)]

/-- Leaves the loop where the last round began, if a round may be missing. -/
def resumeBranchcountCode (id secondary : Nat) : List Stmt :=
  [.declare "mark" (.plain "r.track_pop()"), .declare "count" (.plain "r.stack_pop()"),
    .declare "here" (.plain "r.stack_pop()"),
    .ifScope (.plain "count > 0")
      (.code "pos = here as usize;" :: .code "r.track_push2(mark, count - 1);" ::
        .pushTag secondary :: goto (id + 1) id),
    .code "r.stack_push2(mark, count - 1);"] ++ fail

def undoBranchcountCode : List Stmt :=
  [.declare "count" (.plain "r.track_pop()"), .declare "mark" (.plain "r.track_pop()"),
    .code "r.stack_push2(mark, count);"] ++ fail

def lazyBranchcountCode (id target primary secondary : Nat) : List Stmt :=
  popCounter ++
    [.ifScope (.plain "count < 0")
      (.code "r.track_push(mark);" :: .pushTag secondary ::
        .code "r.stack_push2(pos as isize, count + 1);" :: goto target id),
      .code "r.track_push(mark);", .code "r.track_push(count);",
      .code "r.track_push(pos as isize);", .pushTag primary]

/-- Begins one more round, if there may be one and the last was not empty. -/
def resumeLazyBranchcountCode (id target limit secondary : Nat) : List Stmt :=
  [.declare "p" (.plain "r.track_pop()"), .declare "count" (.plain "r.track_pop()"),
    .declare "mark" (.plain "r.track_pop()"),
    .ifScope (.plain ("count < " ++ toString limit ++ " && p != mark"))
      (.code "pos = p as usize;" :: .code "r.stack_push2(p, count + 1);" ::
        .code "r.track_push(mark);" :: .pushTag secondary :: goto target id),
    .code "r.stack_push2(mark, count);"] ++ fail

def undoLazyBranchcountCode : List Stmt :=
  [.declare "mark" (.plain "r.track_pop()"), .declare "count" (.plain "r.stack_pop()"),
    .code "r.stack_pop();", .code "r.stack_push2(mark, count - 1);"] ++ fail

/-! ### Atomic groups -/

def setjumpCode (tag : Nat) : List Stmt :=
  [.declare "track" (.plain "r.track_pos() as isize"),
    .declare "crawl" (.plain "r.crawl_pos() as isize"), .code "r.stack_push2(track, crawl);",
    .pushTag tag]

def backjumpCode : List Stmt :=
  [.declare "crawl" (.plain "r.stack_pop() as usize"),
    .declare "track" (.plain "r.stack_pop() as usize"), .code "r.track_to(track);",
    uncaptureTo "crawl"] ++ fail

def forejumpCode (tag : Nat) : List Stmt :=
  [.declare "crawl" (.plain "r.stack_pop()"), .declare "track" (.plain "r.stack_pop() as usize"),
    .code "r.track_to(track);", .code "r.track_push(crawl);", .pushTag tag]

def undoForejumpCode : List Stmt :=
  [.declare "crawl" (.plain "r.track_pop() as usize"), uncaptureTo "crawl"] ++ fail

end Source

/-! ### All operations -/

namespace Op

/-- Control never goes from the code of the operation to that of the next one. -/
def terminates : Op → Bool
  | nothing => true
  | backjump => true
  | goto _ => true
  | stop => true
  | _ => false

end Op

namespace Routine

/-- What an operation does first. -/
def forwardCode (m : Routine) (o : Operation) : List Stmt :=
  let primary := m.tag o false
  let secondary := m.tag o true
  match o.op with
  | .rep t count => repCode o t count
  | .span false t max => greedyCode o t max primary
  | .span true _ max => lazyCode o max primary
  | .test t => testCode o t
  | .multi i => multiCode o (m.program.code.strings.getD i [])
  | .ref slot => refCode o m.program.code.ecmaScript slot
  | .assertion a => [failIf (.plain (assertionMisses a))]
  | .nothing => Source.fail
  | .lazybranch _ => [.code "r.track_push(pos as isize);", .pushTag primary]
  | .branchmark false target => branchmarkCode o.id target primary secondary
  | .branchmark true _ => lazyBranchmarkCode primary secondary
  | .nullcount n => [.code ("r.stack_push2(-1, " ++ toString n ++ ");"), .pushTag primary]
  | .setcount n => [.code ("r.stack_push2(pos as isize, " ++ toString n ++ ");"), .pushTag primary]
  | .branchcount false target limit => branchcountCode o.id target limit primary secondary
  | .branchcount true target _ => lazyBranchcountCode o.id target primary secondary
  | .nullmark => [pushMarkCode "-1", .pushTag primary]
  | .setmark => [pushMarkCode "pos as isize", .pushTag primary]
  | .capturemark slot uncapture => capturemarkCode slot uncapture primary
  | .getmark =>
    [.declare "mark" (.plain "r.stack_pop()"), .code "r.track_push(mark);",
      .code "pos = mark as usize;", .pushTag primary]
  | .setjump => setjumpCode primary
  | .backjump => backjumpCode
  | .forejump => forejumpCode primary
  | .testref slot => [failIf (.plain ("!r.is_matched(" ++ toString slot ++ ")"))]
  | .goto target => Source.goto target o.id
  | .stop => Source.stop

/-- What an operation does when it is resumed. -/
def resumeCode (m : Routine) (o : Operation) (second : Bool) : List Stmt :=
  let primary := m.tag o false
  let secondary := m.tag o true
  match o.op, second with
  | .span false _ _, _ => resumeGreedyCode o primary
  | .span true t _, _ => resumeLazyCode o t primary
  | .lazybranch target, _ => .code "pos = r.track_pop() as usize;" :: Source.goto target o.id
  | .branchmark false _, false => resumeBranchmarkCode o.id secondary
  | .branchmark false _, true => redoMarkCode
  | .branchmark true target, false => resumeLazyBranchmarkCode o.id target secondary
  | .branchmark true _, true => undoLazyBranchmarkCode
  | .nullcount _, _ => undoMark2Code
  | .setcount _, _ => undoMark2Code
  | .branchcount false _ _, false => resumeBranchcountCode o.id secondary
  | .branchcount false _ _, true => undoBranchcountCode
  | .branchcount true target limit, false => resumeLazyBranchcountCode o.id target limit secondary
  | .branchcount true _ _, true => undoLazyBranchcountCode
  | .nullmark, _ => undoMarkCode
  | .setmark, _ => undoMarkCode
  | .capturemark slot uncapture, _ => undoCapturemarkCode slot uncapture
  | .getmark, _ => redoMarkCode
  | .setjump, _ => undoMark2Code
  | .forejump, _ => undoForejumpCode
  | _, _ => Source.fail

end Routine

end PatternCompiler
