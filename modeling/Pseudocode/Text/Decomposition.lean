import Pseudocode.Text.Table

/-!
# Characters made of others

Some characters stand for others: a wide letter for the plain one, a
ligature for its letters, an accented letter for the letter and its
accent. The tables hold what the characters of wide names stand for
(Unicode 14): `replacedRanges` and `replacedIdeographs` those that stand
for one other character, `spelledOut` those that stand for several, and
`compositions` those that are a pair of others and are put together again
from them. A character that is a mark on the one before it has a class,
by which marks are ordered; the others have class zero.
-/

namespace Pseudocode.Text

/-- Code points that stand for one other, as inclusive ranges with what
the first one stands for; the others of a range follow in step. -/
def replacedRanges : List (Nat × Nat × Nat) := tableRangesTo "
  GoaHmlaCOcfaCMzHpaiLtavbaBNgbaBNbbaqbaBNybaebambaBOdbaeBoaBLsbaBMrbaobakbaBPqDobIgcaBmBxaGxtaBNn
  CvaCGsbambaBldaCobalBaalbbocaDdbaCgeaBjEYdaKAkEQaaMOzbaKgbaKdcbebaZkbhZdcaqbaBJybaBJvbaebbebagba
  ubbBMcbaUFsbaVRrbbebaBMobbebaBMlcaibaebaRcbaQxbaBLibbUGybaVSdbbibaVSkbaUFjbaBMvbaVSwbcTHdbbBobaC
  OfbasbbgbbCLubaBebbkoaJeBjaBLtbaBMbbaBMibaBBlbaBCabaBMpbaBMwbaebaibcgbaUNebaUJbbaDrbaUNobaUJrbaD
  nbabbdebambbubaQnbbRcbaUDibbUDdbaBOrbcBPcbaWuTracGxaCNfoakrazbaibaubasbaBLabaBMfbdgbakbbgDyaDrfa
  ZqdaWvbaCjbaabaabaCmbaOsbaRbbaabagbaCmcaChecebaebaahaqcaCNecaCNdcaBdcbrcaCsbbClcaqbaCqbdEBybaECj
  daCNubazbaClbaBagaCOdbbCmbbkxaCleaBafaedaxbbrbaubaCeeaBafaedaxbbrbauEEfafbaBnJiaBIDaBBlaBCRwbbgJ
  nbBYExbaNcbaMxbbNcbcMzbfNibaLnbcBnbaCcbjBvbuGubabbbFvbbNubakbaebakbaibaebaOnbaOwbaebbOxbagbbebak
  baebeebaobaibaubaobakbbMsbcLvbbDmbaibbsbagbaubagBSIoaKCrbaeIdaETOoFaaEWPzbagbaweaQkbaDmBHjaEVPob
  aDCabaEXVzbaEXYckaEXVlBEExaCNqbaBjbbgbcqbaBabaeBoaKkbaabaubaabaabaabagbaabaabaabaebaabaabaabalba
  abaabaabakbaabaabaabalbaabaabaabaDibaabaabaabaebaabaabaabaCpbaabaabaababbaabaabaabagbaabaabbabac
  baabaabambaababbaabaebaabalbaabaBgbaabanbaabaBwbaabaabaabambaabaabaabaibaabaabaabadbaabaabaabasb
  babacbaabaadambaabaabaabafbaabaabaabaBobaaBkaCvbaabaabaabaCabaababbaabaebaacagbaabalbaabaibaabao
  baabaabaabaKjbaataKcbaabaabaaVsaEWnbaazaabaabaaBxaEJknambbabacbaabbabbcbacbaabbabacbaabbabacbaab
  babacbaabbabacbaabbabbcbbcbbcbbcbacbaabbabacbaabbabacbaabbabacbaabbabacbaabbabacbaabbabacbaabbab
  acbaabaabaobaabaabbabacbaabbabacbaabbabacbaabbabacbaabbabacbaabbabacbaabbabbcbbcbacbaabaaBcjEQdi
  zBifaCiczemaBKUkbaGfbaebaebaebaebaEmbaebaebaCtbaEkbaGxbaebaebaebbebagbaebaebaebaebaebaebaebaebae
  baebagbaebaebfebaqbagbagbagbegbambaebfebaobaibbGxbaXQvbbHjbaNcbaMxbbNcbcMzbfNibaLnbcBnbaCcbjBvef
  GudfmdfmdcmCXhbLCfbaBLrbaBHmbaFjcaGebaEXVibaEXVdbabbbFzbaUQgbaUQbbambaFubaFhbadbadbaEobaBCpbaBCs
  baEbbaCgbbCybaEtbaNWZgbaJBXjbaEVBrbaNWZebaNWWrbaNWWubaNYBzbbBDkbaBNtbaBOcbaNWYmbbNWYfbagbaDcbadb
  aEXVebaEXVbbaCjbaBFTicaBFStbbBkbarbcQpbaNXMybaBoCZJizNYRxbzCmbzClbgCmcrqbzDbbzCmbaClcbedaidbgddi
  chkbdBccakcgeckqbzDpbzCmbbClcdgdhmcgsczBcbbClcdgcekcamegiczBcbzClbzCmbzClbzCmbzClbzCmbzClbzCmbzC
  lbzCmbzClbzCmbaQabaUedqBAqbaobgwcyBccaibagbaebaybajbabbqDpbaobgwcyBccaibagbaebaybajbabbqDpbaobgw
  cyBccaibagbaebaybajbabbqDpbaobgwcyBccaibagbaebaybajbabbqDpbaobgwcyBccaibagbaebaybajbabbbCedjCUhb
  jabjabjabjaIIrbENmbakbagcaBybaBrbajbaubaBmbdnbaBfbambaqbaxbaBabaBhbagbbtbaibaebambaebaebaEabaFwb
  aBxbaDvcaFlbaicaCcdaBzcaCgbdnbaBfbambaqbaxbaBacaBbbbtbaicaqcaihaBbfaccaCgcalcaebaBlbamcahbaBacaB
  bdalcaqcaicaJwcaFtcaFlbaicaCcdaBzbaubaBmbancbebaBjbambaqbaxbaBacaBbbbtbaicaqbaebaebaEacaDycbJjba
  kbagbbBwbaBpbajbaubaBmcclbaBhbambaqbaxbaBabaBhbagbbtbaibaebambaebaegaBjbaibagcaBybaBrbajbaubaBmc
  clbaBhbambaqbaxbaBabaBhbagbbtbaibaebambaebaeFAbjEOx"

/-- Ideographs that stand for one other: the first code point of a row,
and what it and those after it stand for. -/
def replacedIdeographs : List (Nat × List Nat) := tableRows "
  DQHsECGmBCHbBEEmBNnWSbYSjEIgCFJaaCBGfBQUqBTRfCVyGOyPMsGXkFCmBDeYmFTmBDFdCJaCVsCHmMKkJZmGLyCFDlDT
  mRVyFJqPFgSDmBXCdOCkQOyCSsBDGfXNqETqBFHxGHmEUoEFsWPgBXLnBReWsNOmEPiFMoDRiGXgEOoGqFTeHAkDFmBYcBCJ
  bSsDDiERiLNyIScOXdBLVxERaWGeDDcKRvEWePDgHTaBVBhCRsKJqCWkXuKSeUiSGeBZCrBIQkBJJhBfBENwCToEScOAqIHt
  BEVhFLuYZoBUArKJkDEcOTeBLqBAAjBCSeBFFzMBkNItXHmFOhRYaBFIrDMsXFiKBoEVqXLfBBGeBAQhHFvYEgXRtNLyBDIj
  CBuHkRFkPLsEEyGJeFHqBVPrZqDYgEDuFEwHTiGYqVPmDPiDEgEgCFSnPHeDOkBBFiBLBnCJgIqBZgHZmBQiCMaDZmDEaBWw
  LDuHTfIMsCKcBXJxKuBPkVGgSEeBLoBHGbXcCRkGFmMOeGQzBBSbGDeDTcBJyBUyOVsOcIMkNgNPcDPsGiQaCCYrBFXuSFcD
  UuBOUfNXlBTwIKeGgHCeDIwFXoDJsLEaISmLKsBREvBKCiBZGbPWmJgEAmBAsECwZwCImDNmURsCBSzMRyBNPsCBGjJUqMTe
  ZEuBKBtBHyFEkIRgBANeBZUfBLkGIeHIqYgBAqDFmFKkBKqHGwHBwBkGTqDWeBZFxUVeUEbWMwCCuNEiMQcEIiBSyBPRrESe
  PGcFKbGoBCmHLjBQjUGsBTXfBNTcBLCpDxJOoDEgTSgZGbNIoEWhBEScFGnKPuJRfBGJfKHhDKq;KmBNIp;cKRs;dPPjZFsC
  TkBWeCqoDgWOkUDrCHa;lBNOa;cDSm;dDZkPe;fGPqBaDkDLoJStELeCBUvYcHwBDgCcIkBTgIcHoBKiIaCVouDDsQiCyHsC
  OgLiNmBMmDTkMoUiBTgOoBMsDJiNiwbqmoDscNsFaYoBRkBqEiXmLiBLoKuaBKuDPaKiBByEiBFoEcCAuKaFBiVwEqBQGhOB
  LaNBYp;CsCEQrCScFxBLnBIwEoZeDyBZyFnFgFqBWqGwLeBgUuPgCUeoLcFgXaJcFjKiDnLgFcBEuGuEeUaWaMoiEoDDmFaB
  EcBFoBfGsTkZwESoEDfJkJmZeLmEcRkeNeBiByGqtBEmBLiUwOkRgLuZkPiCNaMcCRsBJcFiBgWwEkDlEefBhFwGgBDkBRcY
  eWsRaDBgHyIwKgCuyDsCDyDLkLLKulITuORXfDKgCoPLMeHZiZTuNZFrFu;HKZgBujsMRJuMQNrGaBaFmJgCkGaBvVJdNOQy
  MSYboBgBmMRYwNNSvVSuCyMSAuMRZzBaCDzCEqsQUKaQUFbBcWBvWGewDkkWGpWMueCcBswcBiDwqsByueaaMUGoLYIpVSdB
  qMUXcMUWdmBqLsHvBgCmEmGmCaFeBgCoaBqBkqBeBAeUxVaPfCsDJdFFyWdCyByJzMwbJmMYLsMYGhkBeBoqEyMZGmFcMZAx
  DqyGbKyBAWlBcBBHwEeaNAFkMZVdBqBeyNARiNAQjoCNaCKvBBThBBYcBcGiDxNCIoNBUnNBUsNBRjfBiHucBCOjBCQmDiBq
  DkBCUvOGMcOGKbBCYiggBoQXWyQXSxNEMwaMDZjBAKraBDBhOTFeBJSeOZRbsBDEtBDIkDyuCqKmBDTlChBDXgNGBgNFXhJy
  iedDoBoCuBbwDqBoiCawFcGmCsJoNHEmNHFxEzIiCcHmNHKsNHFxHdCdBFKvBFZqBqCkCxBFVxBGMoCgNJJgNJAbViNlBGSl
  BGYaBGZhCtREqgQFuHrTTiBUBvBASaimEsvNKTcOSChBHWcIzPuDyNKIqNKHxInSwBILhBIOwHmFmOqNKKcNKGdBJKvBJQgN
  LOmNLKnBJPzBJSiDmCccNMOaWJbWRmNMLbNNTsNNKzBcHvNmDcEkEdDcBeBaNNDiNNJnTiEwBLHlBLOqhNNMaNOBvBCsNNKa
  DsNNGxIwCbfBMGvBMKmDylEeLUIyLTXfNOHgNOAnNOZuNOOzBaCcNQGmNQCtBqNQYiReNQXvBiBOBdBODeBOCfaBOOsBqBqB
  oFiBORdBOYcNSUmNSSlNSZoNSVrMMHyMLVpNURqBuKuPKDbyBPPoNVAcbDaCaNVBtcaDiBPSjBPXkBPWjGePMPaNWJtEuEyB
  QIzPNXeNXDnNXMmDiNXLjHcBQZfBRFuukNYYcXaaNZIvBRCxPRFuNZMfgBRQxPRTiNZHzBSBzBSDsjCgOBMaOBEjBSFrBSNk
  EoFeBSTdPVGaCkPVFnPVQuOCCrOCKmOCIjHuwODFmFqODEbODOiODNbMRKwOLIhBUCoGgBUEpBUJeBDEvPHPkBcBNMpsMQKr
  gKHwCEYvBVBw;PkBNQaBkBKHnBKJceuDeOFWmOFWnEiFkFsKpLwDgIqTzJeeBgOFWuXuLnQBVnBWHweCsOKRwOKLvOGYyQDL
  tiQDVsWgQERdBXDyyweEyCnKiDjLqGfFeCcBXTlBYAmCmBYAhBYHqgOKEiOJVjoBYMrBYOwCLUzQXGoOeQKDzsBZKcFyMcPq
  OLXuOLRdBsGyHcOMZgDMGrLAMbBdEaLBAaLAIlHsOQRkCcOPSrHeCmOQHuOQGzVyMgcHbBDiCeORQwOQObCFNvCFRgOROaQW
  YzCGFqBRFtBRNeOTIyQkRABvqCGQmOUWyRBItRBToOVEjaCiOVYgOVJzCGVtCHBgJsCcEqCHFrRFXsOXWtXgOoCISzCkCIYu
  PAJmRJHjRJLqUkKcPARzCJQvCJVqkouoCwPCXu"

/-- Code points that stand for several others and are not put together
from them again. -/
def spelledOut : List (Nat × List Nat) := tableRows "
  LuFqc;bCmc;mCfIg;bCmFu;jBToBTj;EtBWpBsCBc;baEeBYq;bCmBsBYq;bBvd;baCi;bCmd;bChh;baCe;bCmh;BlDfBs;
  baEe;bCmBs;MzCAan;WhBUoCg;JeOyFy;bCoDk;bJuGj;bJpDg;BCiCDaDa;bcCy;bcCw;bkCm;bkCc;bcCa;bsBi;biBa;E
  vIuCc;bcCa;cBaBa;DgKcu;dmi;BjCpCy;bcCw;bkCm;dBeBi;JuSyCc;bcCa;BByCKkCb;EyJwCb;BpCpBj;bat;DyLqJa;
  kuIg;fkHw;fkHm;fkHc;nCbJa;kDuc;cag;bFaDv;baEzBe;bcDx;baFbBe;iFbBe;sCoCw;kuCc;fkBs;fkBi;fky;nCbCw
  ;FQnLMzBUo;IhCNgNn;ciNv;ceNz;ceOd;cmOp;cmPb;ciPj;CkEhLb;oiLj;ceLn;iCqNpn;iClLr;iDkOnn;iClMp;olMd
  ;cuMx;LsCPbCCw;Ccqa;baaa;baBa;cBaz;baza;bazaa;bzBe;cBeBd;baBda;gBia;baaa;baBa;cBaz;baza;bazaa;bz
  Be;cBeBd;baBda;FTcBKKme;DsDiBq;CYMzBKPda;bag;bam;baag;baam;bBac;bac;nDUoe;baBd;bar;bup;btn;gHuCv
  ;cByEn;lrDb;baCz;baDlk;baDlm;bBxBx;baBv;baBn;bcBp;bcBr;bcBt;bcBv;bcBx;bcBz;ceCd;bcCf;bcCh;bcCj;b
  cCl;ceCp;ceCt;bcCv;ceCz;bcDb;ceDf;bcDh;bcDj;bcDl;bcDn;bBpCd;bhBj;buCd;bsCv;bBny;DhUcJx;baJx;lfJr
  ;baJr;BsvGj;nJpuDl;bauDl;bauJy;bauJy;baux;baux;bauIw;bauIw;bauIu;bauIu;bauIy;bauIy;bauJo;bauJo;b
  auJo;bauv;bauv;bauv;fauDb;bauCz;bauBd;bauv;baut;bCpi;bak;bam;baCg;baCo;baCq;bee;bag;bai;baCc;baC
  k;baCm;bcc;baCa;baCi;baCk;bcc;baBy;bcb;baBw;bcd;bab;baBu;bkn;bal;baj;baBk;bep;baBg;bct;bar;bap;b
  aBe;bct;baBc;bcBa;bcz;bay;bcBb;baw;boBp;baBn;baBl;bai;baq;bas;bcBp;bag;bao;baq;bcCd;baBt;baBr;ba
  Bp;bac;bae;bam;bao;bcBv;baBt;baBr;bac;bak;bam;bcBx;baBv;baBt;baa;bai;bak;bcBz;baBx;baBv;bab;bag;
  bai;bcCb;bad;bae;bag;bgCh;baCf;baCd;baj;bab;baa;bBzEy;bcEw;bBwDa;hcuCr;bauCp;bauBd;bauBb;bauv;ba
  ut;bCps;bau;baCg;baCi;baCo;baCq;beo;baq;baCc;baCe;baCk;baCm;bcm;bao;baCa;baCc;baCi;baCk;bBsq;bas
  ;bco;baq;bcCd;bac;bae;bam;bao;bcc;bak;bam;bcCh;baa;bcBp;baBn;bab;baa;bag;bai;bgDa;bcBx;baBv;baj;
  bah;bab;baa;bauDb;bauCz;bauCx;bauBd;bauz;bCpi;bak;bam;baCg;baCk;bee;bag;bai;baCc;baCg;bcCa;bcc;b
  aBy;bcb;baBw;bcd;baBu;bkn;bal;baj;baBk;bep;ban;baBg;bct;bar;bap;baBe;bct;bcBa;bcz;bay;bcBb;baw;b
  oBp;baBn;baBl;bai;bcBp;bag;bcBt;baBr;baBp;bac;bae;bcBv;baBt;baBr;bac;bag;bcBx;baBv;baBt;baa;bcBz
  ;baBx;baBv;bab;bac;bcCb;bad;baDe;bgCh;baCf;baCd;baj;baf;bauBd;bauz;bCpCg;baCk;beCc;baCg;bcCa;baC
  e;bqBk;baBo;bcBi;baBm;bBec;bae;bcc;beb;bac;bij;baf;btBcg;baBee;baBgc;brBk;baBm;beBg;baBi;bcBe;ba
  Bg;bnBs;baBu;bcBq;baBs;bnCe;baCg;bbCg;baCi;beCc;baCe;boBo;baBq;bcBm;baBo;bdp;ban;bal;baBi;baf;bb
  d;beh;bcj;bcBk;baBm;beBg;baBi;bcBe;baBg;bnBs;baBu;bcBq;baBs;bnCe;baCg;bbCg;baCi;beCc;baCe;boBo;b
  aBq;bcBm;baBo;bdp;ban;bal;baBi;baf;bbd;beh;bcj;bdp;ban;bal;baBi;bbBo;bcBm;bgBc;bhn;bal;baj;bcp;b
  an;bal;bgBc;bcBa;bBhCu;baCu;tgeBy;bagb;bagb;bagBw;baiBu;baCcBx;baCcBv;baCcBt;beByBv;baByBv;bcBwk
  ;baBwi;bmlb;banc;banCg;baBkBv;baBkBv;baBkBx;baBka;baBka;bepa;bapa;baBga;bbnBw;banBw;bapCi;baBiBt
  ;baBiBt;baBia;baBia;berCe;bapBu;bapBu;bcBcBv;baBcBv;baBca;baBck;bezBy;baya;baya;bayi;bcwa;bawk;b
  awi;boBlBu;baBlBu;bcgBv;baga;beBtBw;baBtCg;baBtCe;baBva;baBva;baBrBu;baBrBu;bacBv;bacBv;bcBvb;ba
  BvBw;baBvCg;baBxc;baBxBy;baBtd;baBtBu;daBxe;bedBx;bada;bbBxBw;baBxCe;baBzBy;baBzBy;baBzCg;babk;b
  abi;bija;baja;bCpmCe;beeCi;baeCg;baiCe;baiCc;baCck;baCci;beByk;bacCe;baByi;bojCc;bepCg;bbnCg;ber
  Cg;bBcBvCi;back;bmCfCg;baChCi;bajk;bjak;bfgk;biBxCg;bhgBv;beBtBw;bvyk;buek;bgBzc;bbBtCe;bbBvBy;b
  bea;bcBvBy;beBzc;bBzcCg;bcbCi;bBwBxCi;bhik;bBxkCg;bCcea;btzBy;bhBga;bdjCe;bBmBzCi;BpBhBeKy;bBaeK
  y;bCbCgag;baCeCbs;bCiBvBwBr;bBfBevy;bheBqh;bqwmf;bBeBpBic;bBlBek;Eqww;gaBc;caBe;caBg;caBi;caBk;c
  BxDk;baDk;baDm;baDm;bCoy;bay;bCnDo;baDo;bCsu;bau;bau;bau;EblCfDk;baCfDk;baCfDm;baCfDm;baCfDo;baC
  fDo;baCf;baCf"

def compositions : List (Nat × Nat × Nat) := tablePairs "
  HkFaCHcbacbacbacbakbaeceCgbeCzbacbacbambipbacbacbamckjbcfbacbacbacbakdmpbacbacbambindqbbacbacbac
  bakbaeceCgbeCzbacbacbambipbacbacbamckjbcfbacbacbacbakdmpbacbacbambincaobEhhbCmabClebCmabClCqbCma
  bChCzbCmabClcbCmabClkbCmabClkbCmabCjabCmadCjpbCmabClebCmabClcbCmabClCobCmabClCdbCmabChtbCmabClib
  CmabClcbCmabClCmbCmabCjCvbCmadCjcbCmabClcbCmabClebCmabClCqbCmabClCnecjbCmabCjCwbCmacCjCxbCmabClC
  ybCmabClCbbCmafChvbCmabClCybCmabClCbbCmaeCjpbCmabClebCmabClkbCmadCftbCmabClCybCmabClCbbCmabCjvbC
  mabClcbCmabClCwbCmabClCbbCmabCjCcbCmabClCbbCmadCjrbCmabClcbCmabClebCmabClibCmabClcbCmabClCgbCmab
  ChCxbCmabChabCmabClmbcnbCmabClmbCmabClkbCmaBiDhBebCmaoBzabCmaBdDzBdbCmabBvabCmabBzabCmabBzabCmab
  HypbCmabClfbCmabClwbCmabClxbCmacEhibCmabYuabcabBBdabCmadMfqbCmabCdabCmabCdCebCmabBDeCtbcabDzqbQw
  abBQlaeCrvbCmadBxbbCmabGscbCmabCjabCmabBbabCmabObBcbCmabClebCmabCddbCmabClebCmabCddbCmabClebCmab
  BzdbCmabClebCmabCfdbCmabClebCmabCfdbCmabClebCmabCpBqbCmabCjabCmadDjBzbCmahCzjbCmabCdCmbCmabIsCrb
  CmabCnabCmabMtgbCmabBIkfbcabBKdabCmaNbCIyfciabeabeacmacmabiabCoaBaDtobyabynbiabeabeabBkaBaBjobya
  blnbmabiafsabaoBsFepbaqcdnezofBonbdbbwmlvaBgCmaxflbaqcdneCsofCdnbdbbwmyDusbcaCwHhrbCmaoCxabCmabC
  lebCmadCbdbCmadMoebcabOzabCmabCjabCmadCjhbCmabClibCmabBzabCmadNcabcabOlabCmabDfhbCmabClibCmabClg
  bCmabCdfbCmadCdabCmaLlBKqCMwbacbCoabCncbCsbFyKsacBnarBiaXaBUaCFgiqadgaFvLkKabaByOqBDoBDmdaBvbaBy
  CuFuJwCcEaBxbcabbByEuJwJuEqJiJuhoabaccaBnbiBmExJoIcbcabbByFmLiIwcakbgjbfBqWmBTgBTmEDcIGeIJeceace
  aceaceaeiaBpDeaceadeabcacgaBAzULtSFvbCmabCjChbCmabClCebCmabClBcbCmabHuDrbCmabMnmbCmabClCebCmabCl
  BcbCmabCltbCmabClmbCmabNkDlbcabbcbcabPvDkbCmabClgbCmabBIsDfbcabBLdcbCmabCjfbCmabCjgbCmabClCebCma
  bClCbbCmabClCkbCmabClobCmabCjebCmabHwDpbCmabMpabCmabClCqbCmabClBcbCmabCjBbbCmabWOqCjbcabWRdDmbCm
  abClhbCmabCjDjbCmabClmbCmabClCebCmabCjCdbCmabClCebCmabClBcbCmabClhbCmabHyDjbCmabClobCmabGspbcabb
  cbcabTlabCmabClmbCmabChabCmabClCebCmabWQyCjbcabWTlDmbCmabCjDfbCmabClCebCmabRuCdbcabkabcabVZeabca
  bWTxabCmabClCebCmabClBcbCmabClhbCmabCjrbCmabClybCmabClfbCmabSsDjbcabcobcabVhjbCmabClCmbCmabCjCrb
  CmabClcbCmabClobCmabClbbCmabClCebCmabCjCdbCmabClcbCmabCjbbCmabCjjbCmabClCobCmabClBcbCmabBjabyDdb
  gebeacUeffYlCebCmabClBzbCmabHmpbCmabClbbCmabClsbCmabCllbCmabWNsbbcabWLhbbcabbbbcabbsbcabblbcabWL
  egbcabWZvCgbCmabClBzbCmabCllbCmabHudbCmabClbbCmabClsbCmabCllbCmabWOybbcabXBjobCmabClCabCmabBzabC
  mabClBzbCmabHupbCmabClbbCmabClsbCmabCllbCmabWPsbbcabWCnbbcabbbbcabbsbcabblbcabbCmbcabZnabCmabClB
  zbCmabYepbcabbbbcabbsbcabblbcabbCmbcabBAjCrbCmabClCsbCmabClBzbCmabCllbCmahCLkBgbacbURuBnbcabbcbc
  abbFabcabUUhDpbacbUUwBnbcabbcbcabbFabcabUSdDpbacbUSsBnbcabbcbcadUVfBkbacbUVuBnbcabbcbcadUTfBkbac
  bUTuBnbcabbcbcabbFabcabUWhDpbacbUWwBnbcabbcbcabbFabcabUUhDpbacbUUwBnbcabbcbcabbFabcabUXjDpbacbUX
  yBnbcabbcbcabbFabcabUVbDpbacbUVqBnbcabbcbcadUYdBkbacbUYsBnbcabbcbcadUVvBkbacbUWkBnbcabbcbcabbFab
  cacUYxDncUZoBncaccaFabUWtDpbacbUXiBnbcabbcbcabbFabcabUZvDpbacbVAkBnbcabbcbcabbFabcabUZvFbciaceac
  eacmacmaciaeUPyFibcabcabcabcabcabcabcabcabcabcabcabcabcabcabcabBiabcabcabcabcabcabcabcabcabcabca
  bcabcabcabcabcabDuabcabcabcabcabcabcabcabcabcabcabcabcabcabcabcabVAhEvbadbVAkFabVAjabjackfbVFugb
  VIfEvbadbahcaFigVDeabVAfabracsfbVGogbVJdFhceacaFieCqEvbadbBiheBhFcbBiabDtEpbadbahgDkmbadbmhctBmb
  acbiDobmabCxEpbadbahchBogVCoDubUZlabkacjfbVIwgbVMbFhcuacaFiGEqBHUyBIIqceaceaceaceaceaceaceaceace
  aceaceadgaceaceahoabaccgbbaccgbbaccgbbaccgbbacxEbbkGsaoBcaceaceaceaceaceaceaceaceaceaceaceadgace
  aceahoabaccgbbaccgbbaccgbbaccgbbacxEbbdFqabcabcabcaewaDGRsGNJkGNTqceapuaFbKuIkbcaUuBPaBPebaByOdB
  CmBBibatcaBaJsTqSqbcaBIjCQqCRa"

def markClasses : List (Nat × Nat × Nat) := tableRangesTo "
  BDouRsbaebdxbaybaBfbeibbBjbdBkbbBjbkBkbeQvbdQwbhubaubatbctbcubbtccubdtbaubaebbxbaubagbbcbabbbcba
  bbmfKqeaKgatbdubatbcubapbadbfubftbbubatbbubapbambaebaQxbacbacbacbacbacbacbacbacbbcbacbacbaccacca
  cbaccaPubatcaPnCvhQibaPjbacbacBxajbacbacbacbacbacbacbacbbPcbbtbeubatbbubatraOfDygPaddabatbaudbac
  atbbubatBkaOdBfaOybatbbubatbbubctbaubbtbaubatbcubatbaubatbaubatbaubatbbuGfgabatbaukatzduciaccace
  aBsctCjaubctbduBreabetbnucatbbubatbbubatbcubctbaOvbacbacbcPmbatbbubbtbeuCjaRdraeeaRabatbbuEaaRdr
  aeBxaRaCkaRdraeEhadraeEhadraeEyaaEhadraeiaFubaoDyaGlraeEgbaraaEvaaEgbHgbaHfodHoEfbwbaIjodIsCzbHo
  BcaacaacahCeaGrbaccaegdddaacbHsbaQzcbRaClatEjaQjcbeDfaQgBBscuBKnbQzBfaaGcaalaRaHwadFoalbaqbatIma
  ubatCuaQfvhRadatBxeubftbbubatcbabbubbtbeubatbduDyaRdqaeBnaRabatbguCdbQzChadmbeCqadFxcRecaRpbeQwb
  bubdtbaucgRpfaQwhauebaHrbabatbgubatbbubaibaBnbambaBjbBkCebaebbhbapbadbaybagbazbaubatBBtbubbRpbdR
  qbcRpbbRqfaaebRpbaRqbatbaubbRpbdQwbauEOdcaFmaQzDtBfRaVjaxbaubaibatbbeEcbQpBSQfaRcfjaBhbaDdbaKraQ
  zBmaaFwaaBcrRaCgctBmaQfDsadnaeJgaRacbabatdbugbacaaCbaQzJnaaBDZtaBiBDqgPsbgtbbuBLmatItaaFueuCMtat
  cauBpaabaRpbaQwfaQfGkaRabatWcduOybaFybtbcubatbaubdtByaubatbaubatHlaQfBqaapaaCgaabadCscReBxbQzCla
  dCzaekadEdaebadGxaabaeDdbdraezgRaeeaHyaQzeadyaReDwaQzbadJsaebadExaeEpaabadEmaeKkaabadJzbefadGbae
  DgaataaDeaaQgaaJzadcbeDeaaBDHpepCigRqBUobRfBDAzajHWpbQobcQneaRibetjhideubbtBfduFtcaFFggacqadgacb
  aceaKcgaOmaaCkdaCFxgtEgfubaRd"

end Pseudocode.Text
