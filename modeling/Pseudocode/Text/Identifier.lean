import Pseudocode.Text.Table

/-!
# Names

The pseudocode itself names things with ASCII letters, digits and
underscores only. The traced script follows the wider rule of its own
language: the first character is in the Unicode class `XID_Start` or an
underscore, the others are in `XID_Continue`. The tables hold the
non-ASCII part of the two classes (Unicode 14); a character that may
start a name may also continue one, so the second table lists only
what it adds.
-/

namespace Pseudocode.Text

def isNameStart (c : Char) : Bool :=
  c.isAlpha || c == '_'

def isNameChar (c : Char) : Bool :=
  c.isAlphanum || c == '_'

/-- An ASCII name at the front of a text, and what follows it. -/
def takeName? : Text → Option (Text × Text)
  | [] => none
  | c :: cs =>
    if isNameStart c then some (c :: cs.takeWhile isNameChar, cs.dropWhile isNameChar) else none

def isName : Text → Bool
  | [] => false
  | c :: cs => isNameStart c && cs.all isNameChar

/-- Non-ASCII code points that may start a wide name, as inclusive ranges. -/
def wideStartRanges : List (Nat × Nat) := tableRanges "
  GoalafagwcBecRpflpeiacaFaecbeccahacccactcDecFijGjcBldahBoCuBafdBuBqBkbcDucaqbiblcdaracBdBeDkmazB
  gkbfagvfakaeayyikgxcfsBpChCbeataijqpfhdbdvcgcaedearaobccpblajffbdvcgcbcbcbBgdcaucricccvcgcbceeat
  aqbyamhdbdvcgcbceeaBfbccqasacfeccdebcacbebecelxaCbhcccwcpeaBbcdadbBfafhcccwcjceeaBgbcbqbsicccBod
  aragcjczfgrexcicadgChBvcaogChbcacecxcacjcaladecawdBhaCmhcBjBceEmBqvarffdeaebicfmnasBlcagadBqcMuc
  ddgcacddBocddBgcddgcacddocCecddCoBmprDhdfeXvdqczgCwekirosprpmccqBzBkafaCqDkiBocagCrlBeByBddemBrf
  zCdwkCaDfaDqBushCdBdoblBrBbBjBqclBjdiiBqdcBqdcfcbeagHjCnKrdfdBldfdhcacacacBedCacgcaeccgeddffmgcc
  gEnaoarmDyafadjcadfhacacacpddgefasBoDZcIuhdebnBlcagadCdiarwkgcgcgcgcgcgcgcgVfcBaiiedefDhhccDlcdg
  BqcDpsBfBxpTtJTnCnBGUeCqBtdKieplbvBurBedDbBoidDydClgbcacezpcccdcwBeBzpBxClfeacbmBblwBaBciBuBdare
  cjlecBoycchvweaeBxcaebdedacazcdkicnfdfdfkgcgcBqcnhEkBeQNrnwfBwMNdObdEbBngnegacjcmcecacbcbcEdBiFi
  hIjtCldCbBpjEqacaeacacacacEvBlzhzmCddBeefdfdfdcBklczcscbcodnBjEsCsCaKiBceBwBwBfoBdgBllBddBjfhceB
  rGbtBjfBjfBnjBznkcocgcbckcocgcbCqLykvlhzfcBpciCsfdacBrcbeadwlwkBeCoscblvlzCtCdhbCnaqdcccBcBrBceB
  cBkhcBbBcCblvlsorEhCuCeByoByoBjNlBphbDbBclajvBrrBvuBcwnCaCgbdaoBsBhyBbBjBeadajBieanBvpdwacaBkrcy
  DhgcacdcocjiBuBnhdbdvcgcbceeataneGdCatdvcBfBvvbcaHdBuBqdBlBvvaCiBqoaCuBaBmgHeBrEnClBghdadhcbcxqa
  caDrhdBmracaBdalBniawamBtuatCuKeicBksaByBdEjgcbcBlwaBafcbcBfpaMqsHiaDcBJlDzEgsHnDXlDsqBPeFZuWkMU
  cVwiBesDasBdtBvrdBgugsBAnClEzCwgaCpmCnbcaBdJBzjBVpBriNFsdcgcbcLeBucsdjPfDKvEcgmeiijIWlDgcCscbdad
  bddclcacgcCmcddhcgcBbcdcecaegcNbdycycBecycBecycBecycBecychCSzBeSoBslgraMkBdtBrBWvgcdcbcocHoCiCpi
  aBUjdcBacbcadacjcdcacahafacacacccbcadacacacacacbcaddcgcdcdcacjcqgccecqGObCLFbBhGDsiIndINppLBkEPk
  UvCFzHHy"

/-- Non-ASCII code points that may continue a wide name but not start one. -/
def wideMoreRanges : List (Nat × Nat) := tableRanges "
  HbaWnEhyaJseKgBscacbcbcaCvkBxBehaDygdfdbcddjyaBfBaDokqjBiikazdciccceBscCjhBrxcBgCdccrcglbdjscCfa
  cgdbdckalbdjpadcCfacefbdceavleamcCfachccccvbdjlfccCfacgdbdciclbdjtaCieeccdkapjreCeacgcccdibmbdjs
  cCfacgcccdibmbdjrdCebcgcccdkalbdjscCtaffcachhjdbCkachnhcjDkacjmfdjClbhjmacacafbBytcbgkcBjkaDxtcj
  ndfcccdgedolcoBBcckiBJtdBdcBebBfbCnBfkadjBicckFoaEplflljEzkCjeCgjcBcdkhjxncpByeBwqmjsincBfmdjBtn
  BxtjjhjEpccufahadcHrClWebuaEumfaelEOdcFmaDtBfVjfEcbBSNejCsafjBhbDdbKnaeafayefaDgbBzrljhrokBdhBam
  BtdBwnqjmaljBwnnajbdjBicBzaccdbgbcaBqegbJdhcbdjBDZhaBCkprpebzcHljBmaDrbXiaItaFueLijCAqccbgdBpcfa
  GkbWcdjjOgbFykBydEtcCcoBgkdbldBukiaBujhcBlncjgbBtancBxnjdclDflhaGflgjhdCebcgdbdckalbdgeeHlrkjfaD
  etnjIggdiBcbDfqqjDemjjDgofjJjoGkjCtfcbddcacbnjEqgdgeaBdjBpgcdjakkBvpPqhchrjCfvcnEtfeacbcgcajjBxe
  cbcejjMsdBCOojDjjBneCigBajBNaacCcidDeambBDAybGZaBtdwUxeefjhdgBfdFtcCCoBxTtCcfBxjapaxecoCAjgcqdgc
  bceKcgkjNtaCknCFngEgggjHBbjBSVGxJf"

def isWideStart (c : Char) : Bool :=
  isNameStart c || (c.toNat ≥ 128 && inRanges wideStartRanges c.toNat)

def isWideChar (c : Char) : Bool :=
  isNameChar c || isWideStart c || (c.toNat ≥ 128 && inRanges wideMoreRanges c.toNat)

def isWideName : Text → Bool
  | [] => false
  | c :: cs => isWideStart c && cs.all isWideChar

end Pseudocode.Text
