import Conduit.Huffman.Table

namespace Conduit.Deflate

inductive Flaw where
  /-- The frame header names another method of compression. -/
  | unknownMethod
  /-- The frame header asks for too large a window. -/
  | windowSize
  /-- The frame header is no multiple of 31. -/
  | headerCheck
  /-- The frame header asks for a dictionary that nobody has. -/
  | presetDictionary
  /-- The length of a stored block and its complement disagree. -/
  | storedLengths
  /-- There is no such kind of block. -/
  | blockType
  /-- A block head announces more symbols than there are. -/
  | tooManySymbols
  /-- A repeated code length has nothing before it, or runs past the end. -/
  | lengthRepeat
  /-- A block could never end. -/
  | missingEndOfBlock
  /-- A symbol is neither literal nor end nor length. -/
  | literalCode
  /-- A symbol is no distance. -/
  | distanceCode
  /-- A copy reaches back before the beginning of the output. -/
  | tooFarBack
  /-- The checksum behind the data is not that of the output. -/
  | dataCheck
  | code (flaw : Huffman.Flaw)
deriving DecidableEq, Repr

def Flaw.message : Flaw → String
  | .unknownMethod => "unknown compression method"
  | .windowSize => "invalid window size"
  | .headerCheck => "incorrect header check"
  | .presetDictionary => "stream requires a preset dictionary"
  | .storedLengths => "invalid stored block lengths"
  | .blockType => "invalid block type"
  | .tooManySymbols => "too many length or distance symbols"
  | .lengthRepeat => "invalid bit length repeat"
  | .missingEndOfBlock => "invalid code -- missing end-of-block"
  | .literalCode => "invalid literal/length code"
  | .distanceCode => "invalid distance code"
  | .tooFarBack => "invalid distance too far back"
  | .dataCheck => "incorrect data check"
  | .code .overSubscribed => "over-subscribed huffman code"
  | .code .invalidCode => "invalid huffman code"
  | .code .outOfRange => "index out of range"

end Conduit.Deflate
