import ChainRelay.Bytes

/-!
Reading bytes as text when they need not be text. Every maximal run of bytes that begins a character
and does not complete it is replaced by one replacement character.
-/

namespace ChainRelay.Text

def replacement : Char := '\ufffd'

private def isContinuation (b : UInt8) : Bool := 0x80 ≤ b && b ≤ 0xBF

/-- The second bytes that may follow a given lead byte of three or four. -/
private def mayFollow (lead second : UInt8) : Bool :=
  if lead = 0xE0 then 0xA0 ≤ second && second ≤ 0xBF
  else if lead = 0xED then 0x80 ≤ second && second ≤ 0x9F
  else if lead = 0xF0 then 0x90 ≤ second && second ≤ 0xBF
  else if lead = 0xF4 then 0x80 ≤ second && second ≤ 0x8F
  else isContinuation second

private def low6 (b : UInt8) : Nat := b.toNat % 64

def lossyChars : Bytes → List Char
  | [] => []
  | a :: r =>
    if a < 0x80 then Char.ofNat a.toNat :: lossyChars r
    else if 0xC2 ≤ a && a ≤ 0xDF then
      match r with
      | b :: r =>
        if isContinuation b then Char.ofNat (a.toNat % 32 * 64 + low6 b) :: lossyChars r
        else replacement :: lossyChars (b :: r)
      | [] => [replacement]
    else if 0xE0 ≤ a && a ≤ 0xEF then
      match r with
      | b :: c :: r =>
        if mayFollow a b then
          if isContinuation c then
            Char.ofNat ((a.toNat % 16 * 64 + low6 b) * 64 + low6 c) :: lossyChars r
          else replacement :: lossyChars (c :: r)
        else replacement :: lossyChars (b :: c :: r)
      | [b] => if mayFollow a b then [replacement] else replacement :: lossyChars [b]
      | [] => [replacement]
    else if 0xF0 ≤ a && a ≤ 0xF4 then
      match r with
      | b :: c :: d :: r =>
        if mayFollow a b then
          if isContinuation c then
            if isContinuation d then
              Char.ofNat (((a.toNat % 8 * 64 + low6 b) * 64 + low6 c) * 64 + low6 d) ::
                lossyChars r
            else replacement :: lossyChars (d :: r)
          else replacement :: lossyChars (c :: d :: r)
        else replacement :: lossyChars (b :: c :: d :: r)
      | [b, c] =>
        if mayFollow a b then
          if isContinuation c then [replacement] else replacement :: lossyChars [c]
        else replacement :: lossyChars [b, c]
      | [b] => if mayFollow a b then [replacement] else replacement :: lossyChars [b]
      | [] => [replacement]
    else replacement :: lossyChars r
termination_by bs => bs.length

def lossy (bs : Bytes) : String := String.ofList (lossyChars bs)

end ChainRelay.Text
