/-!
# Code points and their general categories

A set of code points is a list of ranges with both ends included. The tables of categories and
scripts are written as strings of hexadecimal numbers, which are read here.

Every code point has a general category of two letters: a major class and a subclass. The table
below lists them as runs in code point order, so that a category is found by walking the runs. A
code point is printable when its major class is letter, mark, number, punctuation or symbol, or when
it is the ASCII space.
-/

namespace Tagfold.Unicode

/-- A set of code points, as ranges with both ends included. -/
abbrev Ranges := List (Nat × Nat)

/-- The largest code point. -/
def lastCodePoint : Nat := 0x10FFFF

/-- The code point lies in one of the ranges. -/
def Ranges.contains (rs : Ranges) (code : Nat) : Bool :=
  rs.any fun (low, high) ↦ low ≤ code && code ≤ high

/-- The value of a lower-case hexadecimal digit. -/
def hexDigitValue (c : Char) : Nat :=
  if c.isDigit then c.toNat - 48 else c.toNat - 87

/-- The number written in lower-case hexadecimal. -/
def hexNumber (s : String) : Nat :=
  s.toList.foldl (fun n c ↦ 16 * n + hexDigitValue c) 0

/-- A general category: `Lu` has the major class `L` and the subclass `u`. -/
structure Category where
  major : Char
  minor : Char
  deriving DecidableEq, Repr

namespace Category

/-- The categories of all code points in order: two letters and, above one, the length of the run
in hexadecimal. -/
def runs : String :=
  String.join [
    "Cc20ZsPo3ScPo3PsPePoSmPoPdPo2NdaPo2Sm3Po2Lu1aPsPoPeSkPcSkLl1aPsSmPeSmCc21ZsPoSc4SoPoSkSoLoPi",
    "SmCfSoSkSoSmNo2SkLlPo2SkNoLoPfNo3PoLu17SmLu7Ll18SmLl8LuLlLuLlLuLlLuLlLuLlLuLlLuLlLuLlLuLlLuL",
    "lLuLlLuLlLuLlLuLlLuLlLuLlLuLlLuLlLuLlLuLlLuLlLuLlLuLlLuLlLuLlLuLlLuLlLuLl2LuLlLuLlLuLlLuLlLu",
    "LlLuLlLuLlLuLl2LuLlLuLlLuLlLuLlLuLlLuLlLuLlLuLlLuLlLuLlLuLlLuLlLuLlLuLlLuLlLuLlLuLlLuLlLuLlL",
    "uLlLuLlLuLlLuLlLu2LlLuLlLuLl3Lu2LlLuLlLu2LlLu3Ll2Lu4LlLu2LlLu3Ll3Lu2LlLu2LlLuLlLuLlLu2LlLuLl",
    "2LuLlLu2LlLu3LlLuLlLu2Ll2LoLuLl3Lo4LuLtLlLuLtLlLuLtLlLuLlLuLlLuLlLuLlLuLlLuLlLuLlLuLl2LuLlLu",
    "LlLuLlLuLlLuLlLuLlLuLlLuLlLuLl2LuLtLlLuLlLu3LlLuLlLuLlLuLlLuLlLuLlLuLlLuLlLuLlLuLlLuLlLuLlLu",
    "LlLuLlLuLlLuLlLuLlLuLlLuLlLuLlLuLlLuLlLuLlLuLlLuLlLuLlLuLlLuLlLuLlLuLl7Lu2LlLu2Ll2LuLlLu4LlL",
    "uLlLuLlLuLlLuLl45LoLl1bLm12Sk4LmcSkeLm5Sk7LmSkLmSk11Mn70LuLlLuLlLmSkLuLlCn2LmLl3PoLuCn4Sk2Lu",
    "PoLu3CnLuCnLu2LlLu11CnLu9Ll23LuLl2Lu3Ll3LuLlLuLlLuLlLuLlLuLlLuLlLuLlLuLlLuLlLuLlLuLlLuLl5LuL",
    "lSmLuLlLu2Ll2Lu33Ll30LuLlLuLlLuLlLuLlLuLlLuLlLuLlLuLlLuLlLuLlLuLlLuLlLuLlLuLlLuLlLuLlLuLlSoM",
    "n5Me2LuLlLuLlLuLlLuLlLuLlLuLlLuLlLuLlLuLlLuLlLuLlLuLlLuLlLuLlLuLlLuLlLuLlLuLlLuLlLuLlLuLlLuL",
    "lLuLlLuLlLuLlLuLlLuLlLu2LlLuLlLuLlLuLlLuLlLuLlLuLl2LuLlLuLlLuLlLuLlLuLlLuLlLuLlLuLlLuLlLuLlL",
    "uLlLuLlLuLlLuLlLuLlLuLlLuLlLuLlLuLlLuLlLuLlLuLlLuLlLuLlLuLlLuLlLuLlLuLlLuLlLuLlLuLlLuLlLuLlL",
    "uLlLuLlLuLlLuLlLuLlLuLlLuLlLuLlLuLlLuLlLuLlLuLlLuLlLuLlLuLlCnLu26Cn2LmPo6Ll29PoPdCn2So2ScCnM",
    "n2dPdMnPoMn2PoMn2PoMnCn8Lo1bCn4Lo4Po2CnbCf6Sm3Po2ScPo2So2MnbPoCfPo3Lo20LmLoaMn15NdaPo4Lo2MnL",
    "o63PoLoMn7CfSoMn6Lm2Mn2SoMn4Lo2NdaLo3So2LoPoeCnCfLoMnLo1eMn1bCn2Lo59MnbLoCneNdaLo21Mn9Lm2SoP",
    "o3LmCn2MnSc2Lo16Mn4LmMn9LmMn3LmMn5Cn2PofCnLo19Mn3Cn2PoCnLobCn5Lo18SkLo6CnCf2Cn6Mn8Lo29LmMn18",
    "CfMn20McLo36MnMcMnLoMc3Mn8Mc4MnMc2LoMn7LoaMn2Po2NdaPoLmLofMnMc2CnLo8Cn2Lo2Cn2Lo16CnLo7CnLoCn",
    "3Lo4Cn2MnLoMc3Mn4Cn2Mc2Cn2Mc2MnLoCn8McCn4Lo2CnLo3Mn2Cn2NdaLo2Sc2No6SoScLoPoMnCn2Mn2McCnLo6Cn",
    "4Lo2Cn2Lo16CnLo7CnLo2CnLo2CnLo2Cn2MnCnMc3Mn2Cn4Mn2Cn2Mn3Cn3MnCn7Lo4CnLoCn7NdaMn2Lo3MnPoCnaMn",
    "2McCnLo9CnLo3CnLo16CnLo7CnLo2CnLo5Cn2MnLoMc3Mn5CnMn2McCnMc2MnCn2LoCnfLo2Mn2Cn2NdaPoScCn7LoMn",
    "6CnMnMc2CnLo8Cn2Lo2Cn2Lo16CnLo7CnLo2CnLo5Cn2MnLoMcMnMcMn4Cn2Mc2Cn2Mc2MnCn7Mn2McCn4Lo2CnLo3Mn",
    "2Cn2NdaSoLoNo6CnaMnLoCnLo6Cn3Lo3CnLo4Cn3Lo2CnLoCnLo2Cn3Lo2Cn3Lo3Cn3LocCn4Mc2MnMc2Cn3Mc3CnMc3",
    "MnCn2LoCn6McCneNdaNo3So6ScSoCn5MnMc3MnLo8CnLo3CnLo17CnLo10Cn2MnLoMn3Mc4CnMn3CnMn4Cn7Mn2CnLo3",
    "Cn2LoCn2Lo2Mn2Cn2NdaCn7PoNo7SoLoMnMc2PoLo8CnLo3CnLo17CnLoaCnLo5Cn2MnLoMcMnMc5CnMnMc2CnMc2Mn2",
    "Cn7Mc2Cn6Lo2CnLo2Mn2Cn2NdaCnLo2McCncMn2Mc2Lo9CnLo3CnLo29Mn2LoMc3Mn4CnMc3CnMc3MnLoSoCn4Lo3McN",
    "o7Lo3Mn2Cn2NdaNo9SoLo6CnMnMc2CnLo12Cn3Lo18CnLo9CnLoCn2Lo7Cn3MnCn4Mc3Mn3CnMnCnMc8Cn6NdaCn2Mc2",
    "PoCncLo30MnLo2Mn7Cn4ScLo6LmMn8PoNdaPo2Cn25Lo2CnLoCnLo5CnLo18CnLoCnLoaMnLo2Mn9LoCn2Lo5CnLmCnM",
    "n7CnNdaCn2Lo4Cn20LoSo3PofSoPoSo3Mn2So6NdaNoaSoMnSoMnSoMnPsPePsPeMc2Lo8CnLo24Cn4MneMcMn5PoMn2",
    "Lo5MnbCnMn24CnSo8MnSo6CnSo2Po5So4Po2Cn25Lo2bMc2Mn4McMn6McMn2Mc2Mn2LoNdaPo6Lo6Mc2Mn2Lo4Mn3LoM",
    "c3Lo2Mc7Lo3Mn4LodMnMc2Mn2Mc6MnLoMcNdaMc3MnSo2Lu26CnLuCn5LuCn2Ll2bPoLmLl3Lo149CnLo4Cn2Lo7CnLo",
    "CnLo4Cn2Lo29CnLo4Cn2Lo21CnLo4Cn2Lo7CnLoCnLo4Cn2LofCnLo39CnLo4Cn2Lo43Cn2Mn3Po9No14Cn3Lo10SoaC",
    "n6Lu56Cn2Ll6Cn2PdLo26cSoPoLo11ZsLo1aPsPeCn3Lo4bPo3Nl3Lo8Cn7Lo12Mn3McCn9Lo13Mn2McPo2Cn9Lo12Mn",
    "2CncLodCnLo3CnMn2CncLo34Mn2McMn7Mc8MnMc2MnbPo3LmPo3ScLoMnCn2NdaCn6NoaCn6Po6PdPo4Mn3CfMnNdaCn",
    "6Lo23LmLo35Cn7Lo5Mn2Lo22MnLoCn5Lo46CnaLo1fCnMn3Mc4Mn2Mc3Cn4Mc2MnMc6Mn3Cn4SoCn3Po2NdaLo1eCn2L",
    "o5CnbLo2cCn4Lo1aCn6NdaNoCn3So22Lo17Mn2Mc2MnCn2Po2Lo35McMnMcMn7CnMnMcMnMc2Mn8Mc6MnaCn2MnNdaCn",
    "6NdaCn6Po7LmPo6Cn2MneMeMn10Cn31Mn4McLo2fMnMcMn5McMnMc5MnMc2Lo8Cn3NdaPo7SoaMn9So9Po2CnMn2McLo",
    "1eMcMn4Mc2Mn2McMn3Lo2NdaLo2cMnMcMn2Mc3MnMcMn3Mc2Cn8Po4Lo24Mc8Mn8Mc2Mn2Cn3Po5NdaCn3Lo3NdaLo1e",
    "Lm6Po2Ll9Cn7Lu2bCn2Lu3Po8Cn8Mn3PoMndMcMn7Lo4MnLo6MnLo2McMn2LoCn5Ll2cLm3fLldLmLl22Lm25Mn40LuL",
    "lLuLlLuLlLuLlLuLlLuLlLuLlLuLlLuLlLuLlLuLlLuLlLuLlLuLlLuLlLuLlLuLlLuLlLuLlLuLlLuLlLuLlLuLlLuL",
    "lLuLlLuLlLuLlLuLlLuLlLuLlLuLlLuLlLuLlLuLlLuLlLuLlLuLlLuLlLuLlLuLlLuLlLuLlLuLlLuLlLuLlLuLlLuL",
    "lLuLlLuLlLuLlLuLlLuLlLuLlLuLlLuLlLuLlLuLlLuLlLuLlLuLlLuLlLuLlLuLlLuLlLuLlLuLlLuLlLuLlLuLlLuL",
    "lLuLlLuLlLuLlLuLlLuLl9LuLlLuLlLuLlLuLlLuLlLuLlLuLlLuLlLuLlLuLlLuLlLuLlLuLlLuLlLuLlLuLlLuLlLu",
    "LlLuLlLuLlLuLlLuLlLuLlLuLlLuLlLuLlLuLlLuLlLuLlLuLlLuLlLuLlLuLlLuLlLuLlLuLlLuLlLuLlLuLlLuLlLu",
    "LlLuLlLuLlLuLlLuLlLuLlLuLlLuLlLuLl9Lu8Ll6Cn2Lu6Cn2Ll8Lu8Ll8Lu8Ll6Cn2Lu6Cn2Ll8CnLuCnLuCnLuCnL",
    "uLl8Lu8LleCn2Ll8Lt8Ll8Lt8Ll8Lt8Ll5CnLl2Lu4LtSkLlSk3Ll3CnLl2Lu4LtSk3Ll4Cn2Ll2Lu4CnSk3Ll8Lu5Sk",
    "3Cn2Ll3CnLl2Lu4LtSk2CnZsbCf5Pd6Po2PiPfPsPi2PfPsPiPo8ZlZpCf5ZsPo9PiPfPo4Pc2Po3SmPsPePobSmPoPc",
    "PoaZsCf5CnCfaNoLmCn2No6Sm3PsPeLmNoaSm3PsPeCnLmdCn3Sc21CnfMndMe4MnMe3MncCnfSo2LuSo4LuSo2LlLu3",
    "Ll2Lu3LlSoLuSo2SmLu5So6LuSoLuSoLuSoLu4SoLlLu4LlLo4LlSo2Ll2Lu2Sm5LuLl4SoSmSo2LlSoNo10Nl23LuLl",
    "Nl4NoSo2Cn4Sm5So5Sm2So4SmSo2SmSo2SmSo7SmSo1fSm2So2SmSoSmSo1fSm10cSo8PsPePsPeSo14Sm2So7PsPeSo",
    "51SmSo1eSm19So28Sm6So45Cn19SobCn15No3cSo4eNo16Sob7SmSo9SmSo36Sm8So6fSmSof8PsPePsPePsPePsPePs",
    "PePsPePsPeNo1eSo2cSm5PsPeSm1fPsPePsPePsPePsPePsPeSm10So100Sm83PsPePsPePsPePsPePsPePsPePsPePs",
    "PePsPePsPePsPeSm3fPsPePsPeSm20PsPeSm102So30Sm15So2Sm6So27Cn2So20CnSo69Lu30Ll30LuLlLu3Ll2LuLl",
    "LuLlLuLlLu4LlLuLl2LuLl6Lm2Lu3LlLuLlLuLlLuLlLuLlLuLlLuLlLuLlLuLlLuLlLuLlLuLlLuLlLuLlLuLlLuLlL",
    "uLlLuLlLuLlLuLlLuLlLuLlLuLlLuLlLuLlLuLlLuLlLuLlLuLlLuLlLuLlLuLlLuLlLuLlLuLlLuLlLuLlLuLlLuLlL",
    "uLlLuLlLuLlLuLlLuLlLuLlLuLlLuLlLuLlLuLlLuLl2So6LuLlLuLlMn3LuLlCn5Po4NoPo2Ll26CnLlCn5LlCn2Lo3",
    "8Cn7LmPoCneMnLo17Cn9Lo7CnLo7CnLo7CnLo7CnLo7CnLo7CnLo7CnLo7CnMn20Po2PiPfPiPfPo3PiPfPoPiPfPo9P",
    "dPo2PdPoPiPfPo2PiPfPsPePsPePsPePsPePo5LmPoaPd2Po4PdPoPsPodSo2Po3PsPePsPePsPePsPePdCn22So1aCn",
    "So59CncSod6Cn1aSocCn4ZsPo3SoLmLoNlPsPePsPePsPePsPePsPeSo2PsPePsPePsPePsPePdPsPe2SoNl9Mn4Mc2P",
    "dLm5So2Nl3LmLoPoSo2CnLo56Cn2Mn2Sk2Lm2LoPdLo5aPoLm3LoCn5Lo2bCnLo5eCnSo2No4SoaLo20So24CncLo10S",
    "o1fCnNoaSo1eNo8SoNofSo20NoaSo27NofSo140Lo19c0So40Lo5215LmLo477Cn3So37Cn9Lo28Lm6Po2Lo10cLmPo3",
    "Lo10NdaLo2Cn14LuLlLuLlLuLlLuLlLuLlLuLlLuLlLuLlLuLlLuLlLuLlLuLlLuLlLuLlLuLlLuLlLuLlLuLlLuLlLu",
    "LlLuLlLuLlLuLlLoMnMe3PoMnaPoLmLuLlLuLlLuLlLuLlLuLlLuLlLuLlLuLlLuLlLuLlLuLlLuLlLuLlLuLlLm2Mn2",
    "Lo46NlaMn2Po6Cn8Sk17Lm9Sk2LuLlLuLlLuLlLuLlLuLlLuLlLuLl3LuLlLuLlLuLlLuLlLuLlLuLlLuLlLuLlLuLlL",
    "uLlLuLlLuLlLuLlLuLlLuLlLuLlLuLlLuLlLuLlLuLlLuLlLuLlLuLlLuLlLuLlLuLlLuLlLuLlLuLlLuLlLuLlLmLl8",
    "LuLlLuLlLu2LlLuLlLuLlLuLlLuLlLmSk2LuLlLuLlLoLuLlLuLl3LuLlLuLlLuLlLuLlLuLlLuLlLuLlLuLlLuLlLuL",
    "lLu5LlLu5LlLuLlLuLlLuLlLuLlLuLlLuLlLuLlLu4LlLuLlCn5LuLlCnLlCnLlLuLlLuLlCn18Lm3LuLlLoLm2LlLo7",
    "MnLo3MnLo4MnLo17Mc2Mn2McSo4MnCn3No6So2ScSoCn6Lo34Po4Cn8Mc2Lo32Mc10Mn2Cn8Po2NdaCn6Mn12Lo6Po3L",
    "oPoLo2MnNdaLo1cMn8Po2Lo17MnbMc2CnbPoLo1dCn3Mn3McLo2fMnMc2Mn4Mc2Mn2Mc3PodCnLmNdaCn4Po2Lo5MnLm",
    "Lo9NdaLo5CnLo29Mn6Mc2Mn2Mc2Mn2Cn9Lo3MnLo8MnMcCn2NdaCn2Po4Lo10LmLo6So3LoMcMnMcLo32MnLoMn3Lo2M",
    "n2Lo5Mn2LoMnLoCn18Lo2LmPo2LobMcMn2Mc2Po2LoLm2McMnCnaLo6Cn2Lo6Cn2Lo6Cn9Lo7CnLo7CnLl2bSkLm4Ll9",
    "LmSk2Cn4Ll50Lo23Mc2MnMc2MnMc2PoMcMnCn2NdaCn6Lo2ba4CncLo17Cn4Lo31Cn4Cs800Co1900Lo16eCn2Lo6aCn",
    "26Ll7CncLl5Cn5LoMnLoaSmLodCnLo5CnLoCnLo2CnLo2CnLo6cSk11Cn10Lo16bPePsSo10Lo40Cn2Lo36Cn7SoCn20",
    "LocScSo3Mn10Po7PsPePoCn6Mn10PoPd2Pc2PsPePsPePsPePsPePsPePsPePsPePsPePo2PsPePo4Pc3Po3CnPo4PdP",
    "sPePsPePsPePo3SmPdSm3CnPoScPo2Cn4Lo5CnLo87Cn2CfCnPo3ScPo3PsPePoSmPoPdPo2NdaPo2Sm3Po2Lu1aPsPo",
    "PeSkPcSkLl1aPsSmPeSmPsPePoPsPePo2LoaLmLo2dLm2Lo1fCn3Lo6Cn2Lo6Cn2Lo6Cn2Lo3Cn3Sc2SmSkSoSc2CnSo",
    "Sm4So2CnaCf3So2Cn2LocCnLo1aCnLo13CnLo2CnLofCn2LoeCn22Lo7bCn5Po3Cn4No2dCn3So9Nl35No4So11No2So",
    "3CnSodCn3SoCn2fSo2dMnCn82Lo1dCn3Lo31CnfMnNo1bCn4Lo20No4Cn9Lo14NlLo8NlCn5Lo26Mn5Cn5Lo1eCnPoLo",
    "24Cn4Lo8PoNl5Cn2aLu28Ll28Lo4eCn2NdaCn6Lu24Cn4Ll24Cn4Lo28Cn8Lo34CnbPoLubCnLufCnLu7CnLu2CnLlbC",
    "nLlfCnLl7CnLl2Cn43Lo137Cn9Lo16CnaLo8Cn18Lm6CnLm2aCnLm9Cn45Lo6Cn2LoCnLo2cCnLo2Cn3LoCn2Lo17CnP",
    "oNo8Lo17So2No7Lo1fCn8No9Cn30Lo13CnLo2Cn5No5Lo16No6Cn3PoLo1aCn5PoCn40Lo38Cn4No2Lo2No10Cn2No2e",
    "LoMn3CnMn2Cn5Mn4Lo4CnLo3CnLo1dCn2Mn3Cn4MnNo9Cn7Po9Cn7Lo1dNo2PoLo1dNo3Cn20Lo8SoLo1cMn2Cn4No5P",
    "o7Cn9Lo36Cn3Po7Lo16Cn2No8Lo13Cn5No8Lo12Cn7Po4CncNo7Cn50Lo49Cn37Lu33CndLl33Cn7No6Lo24Mn4Cn8Nd",
    "aCn126No1fCnLo2aCnMn2PdCn2Lo2Cn4bMn3Lo1dNoaLoCn8Lo16MnbNo4Po5Cn16Lo12Mn4Po4Cn26Lo15No7Cn14Lo",
    "17Cn9McMnMcLo35MnfPo7Cn4No14NdaMnLo2Mn2LoCn9Mn3McLo2dMc3Mn4Mc2Mn2Po2CfPo4MnCnaCfCn2Lo19Cn7Nd",
    "aCn6Mn3Lo24Mn5McMn8CnNdaPo4LoMc2LoCn8Lo23MnPo2LoCn9Mn2McLo30Mc3Mn9Mc2Lo4Po4Mn4PoMcMnNdaLoPoL",
    "oPo3CnNo14CnbLo12CnLo19Mc3Mn3Mc2MnMcMn2Po6MnLo2MnCn3eLo7CnLoCnLo4CnLofCnLoaPoCn6Lo2fMnMc3Mn8",
    "Cn5NdaCn6Mn2Mc2CnLo8Cn2Lo2Cn2Lo16CnLo7CnLo2CnLo5CnMn2LoMc2MnMc4Cn2Mc2Cn2Mc3Cn2LoCn6McCn5Lo5M",
    "c2Cn2Mn7Cn3Mn5Cn8bLo35Mc3Mn8Mc2Mn3McMnLo4Po5NdaPo2CnPoMnLo3Cn1eLo30Mc3Mn6McMnMc4Mn2McMn2Lo2P",
    "oLoCn8NdaCna6Lo2fMc3Mn4Cn2Mc4Mn2McMn2Po17Lo4Mn2Cn22Lo30Mc3Mn8Mc2MnMcMn2Po3LoCnbNdaCn6PodCn13",
    "Lo2bMnMcMnMc2Mn6McMnLoPoCn6NdaCn36Lo1bCn2Mn3Mc2Mn4McMn5Cn4NdaNo2Po3SoLo7Cnb9Lo2cMc3Mn9McMn2P",
    "oCn64Lu20Ll20NdaNo9CncLo8Cn2LoCn2Lo8CnLo2CnLo18Mc6CnMc2Cn2Mn2McMnLoMcLoMcMnPo3Cn9NdaCn46Lo8C",
    "n2Lo27Mc3Mn4Cn2Mn2Mc4MnLoPoLoMcCn1bLoMnaLo28Mn6McLoMn4Po8MnCn8LoMn6Mc2Mn3Lo2eMndMcMn2Po3LoPo",
    "5CndLo49Cn7PoaCnf6Lo9CnLo25McMn7CnMn6McMnLoPo5CnaNdaNo13Cn3Po2Lo1eCn2Mn16CnMcMn7McMn2McMn2Cn",
    "49Lo7CnLo2CnLo26Mn6Cn3MnCnMn2CnMn7LoMnCn8NdaCn6Lo6CnLo2CnLo20Mc5CnMn2CnMc2MnMcMnLoCn7NdaCn13",
    "6Lo13Mn2Mc2Po2Cn7Mn2LoMcLodCnLo22Mc2Mn5Cn3Mc2MnMcMnPodNdaCn56LoCnfNo15So8Sc4So11CndPoLo39aCn",
    "66Nl6fCnPo5CnbLoc4Cna4cLo61Po2CndLo430Cf10MnLo6MnfCnfaaLo247Cn21b9Lo239Cn7Lo1fCnNdaCn4Po2Lo4",
    "fCnNdaCn6Lo1eCn2Mn5PoCnaLo30Mn7Po5So4Lm4PoSoCnaNdaCnNo7CnLo15Cn5Lo13Cn2b0Lu20Ll20No17Po4Cn65",
    "Lo4bCn4MnLoMc37Cn7Mn4LmdCn40Lm2PoLmMnCnbMc2CneLo17f8Cn8Lo4d6Cn2aLo9Cn22e7Lm4CnLm7CnLm2CnLo12",
    "3CnfLoCn1dLo3Cn2LoCneLo4Cn8Lo18cCn904Lo6bCn5LodCn3Lo9Cn7LoaCn2SoMn2PoCf4Cn125cMn2eCn2Mn17Cn9",
    "So74Cn3cSof6CnaSo27Cn2So3cMc2Mn3So3Mc6Cf8Mn8So2Mn7So1eMn4So3dCn15So42Mn3SoCn7aNo14CncNo14Cnc",
    "So57Cn9No19Cn87Lu1aLl1aLu1aLl7CnLl12Lu1aLl1aLuCnLu2Cn2LuCn2Lu2Cn2Lu4CnLu8Ll4CnLlCnLl7CnLlbLu",
    "1aLl1aLu2CnLu4Cn2Lu8CnLu7CnLl1aLu2CnLu4CnLu5CnLuCn3Lu7CnLl1aLu1aLl1aLu1aLl1aLu1aLl1aLu1aLl1a",
    "Lu1aLl1aLu1aLl1cCn2Lu19SmLl19SmLl6Lu19SmLl19SmLl6Lu19SmLl19SmLl6Lu19SmLl19SmLl6Lu19SmLl19SmL",
    "l6LuLlCn2Nd32So200Mn37So4Mn32So8MnSoeMnSo2Po5CnfMn5CnMnfCn450LlaLoLl14Cn6Ll6Cnd5Mn7CnMn11Cn2",
    "Mn7CnMn2CnMn5Cn5Lm3eCn21MnCn70Lo2dCn3Mn7Lm7Cn2NdaCn4LoSoCn140Lo1eMnCn11Lo2cMn4NdaCn5ScCn1d0L",
    "o1bLmMn4NdaCn2e6Lo7CnLo4CnLo2CnLofCnLoc5Cn2No9Mn7Cn29Lu22Ll22Mn7LmCn4NdaCn4Po2Cn311No3bSoNo3",
    "ScNo4Cn4cNo2dSoNofCnc2Lo4CnLo1bCnLo2CnLoCn2LoCnLoaCnLo4CnLoCnLoCn6LoCn4LoCnLoCnLoCnLo3CnLo2C",
    "nLoCn2LoCnLoCnLoCnLoCnLoCnLo2CnLoCn2Lo4CnLo7CnLo4CnLo4CnLoCnLoaCnLo11Cn5Lo3CnLo5CnLo11Cn34Sm",
    "2Cn10eSo2cCn4So64CncSofCn2SofCnSofCnSo25CnaNodSoa1Cn38So1dCndSo2cCn4So9Cn7So2CneSo6Cn9aSofbS",
    "k5So2d8Cn4So11Cn3SodCn3So77Cn4So5fCn6SocCn4SoCnfSocCn4So38Cn8SoaCn6So28Cn8So1eCn2So2Cn4eSo15",
    "4CncSoeCn2SodCn3So9Cn7So2eCnSo7Cn8SoeCn4So9Cn7So9Cn7So93CnSo37Cn25NdaCn406Loa6e0Cn20Lo103aCn",
    "6LodeCn2Lo1682CneLo1d31Cnc1fLo21eCn5e2Lo134bCn5Lo1060Cnadc51CfCn1eCf60Cn80Mnf0Cnfe10CofffeCn",
    "2CofffeCn2"]

/-- Read runs: a category and its length, which is one where no number follows. -/
def readRuns : List Char → List (Category × Nat)
  | major :: minor :: rest =>
    let length := rest.takeWhile (!·.isUpper)
    let n := if length.isEmpty then 1 else hexNumber (String.ofList length)
    (⟨major, minor⟩, n) :: readRuns (rest.dropWhile (!·.isUpper))
  | _ => []
termination_by t => t.length
decreasing_by
  have := (List.dropWhile_suffix (l := rest) (!·.isUpper)).length_le
  simp only [List.length_cons]
  omega

/-- The runs of the table in code point order. -/
def table : List (Category × Nat) :=
  readRuns runs.toList

/-- The category found by walking runs that start at code point zero. -/
def walk : List (Category × Nat) → Nat → Category
  | [], _ => ⟨'C', 'n'⟩
  | (category, n) :: rest, code => if code < n then category else walk rest (code - n)

/-- The general category of a code point. -/
def of (code : Nat) : Category :=
  walk table code

/-- The two-letter and one-letter names of classes of assigned code points. -/
def names : List String :=
  ["C", "Cc", "Cf", "Co", "Cs", "L", "Ll", "Lm", "Lo", "Lt", "Lu", "M", "Mc", "Me", "Mn", "N", "Nd",
    "Nl", "No", "P", "Pc", "Pd", "Pe", "Pf", "Pi", "Po", "Ps", "S", "Sc", "Sk", "Sm", "So", "Z",
    "Zl", "Zp", "Zs"]

/-- The code point belongs to the class of the given name. Unassigned code points belong to none. -/
def belongs (name : String) (code : Nat) : Bool :=
  let category := of code
  match name.toList with
  | [major] => category.major == major && category != ⟨'C', 'n'⟩
  | [major, minor] => category == ⟨major, minor⟩
  | _ => false

end Category

/-- The code point has a visible form or is the ASCII space. -/
def isPrintable (code : Nat) : Bool :=
  if code < 0x80 then 0x20 ≤ code && code < 0x7F
  else ['L', 'M', 'N', 'P', 'S'].contains (Category.of code).major

end Tagfold.Unicode
