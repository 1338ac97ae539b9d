import Pseudocode.Text.Table

/-!
# Characters that stand for themselves

A quoted text shows a character itself when it is printable and
writes it as an escape otherwise. Printable are all characters but
those of the general categories control, format, surrogate, private
use, unassigned, line separator, paragraph separator and space
separator; the space U+0020 counts as printable. The table holds the
complement as inclusive ranges in increasing order (Unicode 14).
-/

namespace Pseudocode.Text

/-- The code points that are not printable, as inclusive ranges. -/
def hiddenRanges : List (Nat × Nat) := tableRanges "
  aBfDsBhnaBBnbhdiacavaPiaBnbBzbeaCehBcdhqxaHlaBxbCibDynCibBybqaBdbcameBgiCxaGgajbdbxaiaccfbkbdbfh
  cddagbBabeahddbxaiadadadbcagddbeccgfacgsjeakaeaxaiadagblaeaebcofbngiaeajbdbxaiadagbkbdbegeddagbt
  jdahceafcdacadcdcecndgceafbcfcnweoaeayarbkaeafgdaebcbfblgxaeayalagbkaeafgdfdafbladmoaeaCaaeahdrb
  BbaeatczakacbiccdhacajflbelChdBeBkdacagazacaybgacahblbfBfCvaBldBoaBlaqaoBkHracecbOoafbiacafbBqaf
  bBiafbiacafbqaCgafbCqbBhcBbfDjbhbYraBdcDmgxizivloaeadlDrblflfpamfDmgBseCtjBgandndccBrbgkBtdBbfmc
  ClbCoaBebmflfpbBgBwDacBwaEnhCjcqcCjgBsbmhBseUpbhbBnbhbjacacacaBgbCcaqapbhaubeakqzhBwqdbBcaocBioB
  ioFldZoymuCRtbBhaNmeBuacecbCfgdnziiaiaiaiaiaiaiaiaExBhBbaDmlIhzneCmaDjbEaeBsaDraDhlBwaBRIscCeiNl
  tHdhHwedacagxCiclfCfhCthnfEnkBfcDbamdBiaCeipblbEaxBdjhbhbhiiaiaCjdExblfQNtlydByMNbOdbEdBlilgeBba
  gacadadaEwpRebCdgcBfBrfCaauafdgaFgdHjchbhbhbeciaimdbnaBbauadaqbpBhEueedBucDlaoccBuBvEzBecByoBddB
  liBfeBseBfaBmdpBpGdblfBldBldBphCbknaqaiadamaqaiadCoMaixjjxhaBrakCqhbcaBtadccbyaCvhkBvuadeBicBcec
  ClCfdvbBzadejaeaBebedlgkgCnBfBodniCdcBebBceBbgfliDbCwCcCamCagBvhlLhBgaBraebdCzBphBrvBbBlBdtyiDbd
  BliClagmBaglfCcathBoiDtavktaBtCmiacafaqamfCielffajbdbxaiadagalbdbebcfceibicgFiDpagBdCvhlGjCdbBnB
  hCsklfosChflCbBcbqdyHcCjDvDgljbcbjadaBfadbnilCrjbBvbmBaCvhDgmCwKckaBuapjBecBhbxapCuiadaBtccadakh
  lfhadaBmadahglLxBaHacoBzmBJoDxEiagkHpDXjDwmBPgFZsWmMUaVygBgaldDealfBfbhjCtjlaiaweuBAlDoDwCydCggs
  ClgkdnJCbhBVrBpkNFqfaiadaLgBseqfhPhDKtEeeockglbfGYxBvbyiEnChJnjBobCxhEjuCtFxvlDkiBaFeDiaCuadbcbd
  bfanacaiaCoafbjaiaBdafagacciaNdbLhbBBbogaqBQlBgIqiasbiadagIeBucpblddMhBgqChecBVziafadaqaHqbrBoCz
  dlddBEeCrCxCkHlfaBcadacbcalafacacfcdcacacaeadacbcacacacacadacbfaiafafacalaseeagasBzdKjBtdDxlqbqa
  qaBmjGtCdBemBtdkgdnhFxBLxercocEnlDmgndcondCfhlfBphBfbdCzNdlpbgcgciiBecmehjlfjhiiFsaCeBklBNpCLFdB
  fGDugIpbINrnLBmEPiUxCFxHIaBOTMqJhLECt"

/-- A character that a quoted text shows as itself. The table is not asked
for the first ones. -/
def isPrintable (c : Char) : Bool :=
  if c.toNat < 127 then 32 ≤ c.toNat else !inRanges hiddenRanges c.toNat

end Pseudocode.Text
