import Tagfold.Unicode.Category

/-!
# Scripts

The code points of each script, as ranges: the distance from the end of the range before and the
length, both in hexadecimal.
-/

namespace Tagfold.Unicode.Script

/-- The scripts in alphabetical order, each followed by its ranges. -/
def data : String :=
  String.join [
    "Adlam,1e900,4c,4,a,4,2;Ahom,11700,1b,2,f,4,17;Anatolian_Hieroglyphs,14400,247;Arabic,600,5,1",
    ",6,1,e,1,3,1,20,1,a,b,1a,1,6c,1,22,50,30,f0,1f,1,2,6,4a,1,1d,f250,73,10,16b,2,50,2,36,7,1,20",
    ",10,70,5,1,87,f63,1f,7e,3,df00,4,1,1b,1,2,1,1,2,1,1,a,1,4,1,1,1,1,6,1,4,1,1,1,1,1,1,3,1,2,1,",
    "1,2,1,1,1,1,1,1,1,1,1,1,2,1,1,2,4,1,7,1,4,1,4,1,1,1,a,1,11,5,3,1,5,1,11,34,2;Armenian,531,26",
    ",2,32,2,3,f583,5;Avestan,10b00,36,3,7;Balinese,1b00,4d,3,2f;Bamum,a6a0,58,c108,239;Bassa_Vah",
    ",16ad0,1e,2,6;Batak,1bc0,34,8,4;Bengali,980,4,1,8,2,2,2,16,1,7,1,1,3,4,2,9,2,2,2,4,8,1,4,2,1",
    ",5,2,19;Bhaiksuki,11c00,9,1,2d,1,e,a,1d;Bopomofo,2ea,2,2e19,2b,70,20;Brahmi,11000,4e,4,24,9,",
    "1;Braille,2800,100;Buginese,1a00,1c,2,2;Buhid,1740,14;Canadian_Aboriginal,1400,280,230,46,10",
    "1ba,10;Carian,102a0,31;Caucasian_Albanian,10530,34,b,1;Chakma,11100,35,1,12;Cham,aa00,37,9,e",
    ",2,a,2,4;Cherokee,13a0,56,2,6,9772,50;Chorasmian,10fb0,1c;Common,0,41,1a,6,1a,2f,1,f,1,5,17,",
    "1,1f,1,1c1,27,5,5,2,14,74,1,9,1,6,1,1,1,27d,1,6,1,e,1,3,1,20,1,9c,1,204,1,81,2,4d9,1,195,4,1",
    "22,1,5ef,3,47,2,cb,2,1,1,4cd,1,d,1,7,4,1,6,1,3,2,1,305,c,2,57,1,b,3,b,1,f,11,21,3f,26,1,3,2,",
    "6,1,1b,1,11,29,3,4,297,19,b,15,3a0,100,274,2,20,1,69,200,5e,192,c,4,5,1,1,1,19,f,8,4,4,5b,2,",
    "3,1,5a,2,93,10,20,24,3c,40,1f,51,2f,1,58,a8,19c0,40,5900,22,66,3,a5,a,f4,1,a0,1,18b,1,e,2,51",
    "d2,2,d0,a,16,23,1,13,1,4,93,1,1,20,1a,6,1a,b,a,1,2d,2,40,7,1,7,a,5,102,3,4,2d,3,9,50,d,33,2d",
    ",e4,1b,b9a4,4,12ac,74,3c,f6,a,27,2,3e,3,11,8,2,7,1e,4,3d,d5,14,c,14,c,57,9,19,87,55,1,47,1,2",
    ",2,1,2,2,2,4,1,c,1,1,1,7,1,41,1,4,2,8,1,7,1,1c,1,4,1,5,1,1,3,7,1,154,2,124,2,32,1471,44,4c,3",
    "d,2c2,2c,4,64,c,f,2,f,1,f,1,25,a,ae,38,1a,1,2,d,2c,4,9,7,2,e,6,9a,3d8,4,11,3,d,3,77,4,5f,6,c",
    ",4,1,f,c,4,38,8,a,6,28,8,1e,2,2,4e,154,c,e,2,d,3,9,7,2e,1,7,8,e,4,9,7,9,7,93,1,37,25,a,c0407",
    ",1,1e,60;Coptic,3e2,e,2890,74,5,7;Cuneiform,12000,39a,66,6f,1,5,b,c4;Cypriot,10800,6,2,1,1,2",
    "c,1,2,3,1,2,1;Cypro_Minoan,12f90,63;Cyrillic,400,85,2,a9,1750,9,a2,1,4c,1,1067,20,7840,60,57",
    "8e,2,e200,3e,21,1;Deseret,10400,50;Devanagari,900,51,4,f,2,1a,9f60,20,7200,a;Dives_Akuru,119",
    "00,7,2,1,2,8,1,2,1,1e,1,2,2,c,9,a;Dogra,11800,3c;Duployan,1bc00,6b,5,d,3,9,7,a,2,4;Egyptian_",
    "Hieroglyphs,13000,456;Elbasan,10500,28;Elymaic,10fe0,17;Ethiopic,1200,49,1,4,2,7,1,1,1,4,2,2",
    "9,1,4,2,21,1,4,2,7,1,1,1,4,2,f,1,39,1,4,2,43,2,20,3,1a,19e6,17,9,7,1,7,1,7,1,7,1,7,1,7,1,7,1",
    ",7,7d22,6,2,6,2,6,9,7,1,7,13cb1,7,1,4,1,2,1,f;Georgian,10a0,26,1,1,5,1,2,2b,1,4,b90,2b,2,3,1",
    "040,26,1,1,5,1;Glagolitic,2c00,60,1b3a0,7,1,11,2,7,1,2,1,5;Gothic,10330,1b;Grantha,11300,4,1",
    ",8,2,2,2,16,1,7,1,2,1,5,2,9,2,2,2,3,2,1,6,1,5,7,2,7,3,5;Greek,370,4,1,3,2,4,1,1,4,1,1,1,1,3,",
    "1,1,1,14,1,3f,e,10,1926,5,32,5,4,5,54,1,140,16,2,6,2,26,2,6,2,8,1,1,1,1,1,1,1,1f,2,35,1,f,1,",
    "e,2,6,1,13,2,3,1,9,127,1,8a3e,1,55da,4f,11,1,d05f,46;Gujarati,a81,3,1,9,1,3,1,16,1,7,1,2,1,5",
    ",2,a,1,3,1,3,2,1,f,4,2,c,7,7;Gunjala_Gondi,11d60,6,1,2,1,25,1,2,1,6,7,a;Gurmukhi,a01,3,1,6,4",
    ",2,2,16,1,7,1,2,1,2,1,2,2,1,1,5,4,2,2,3,3,1,7,4,1,1,7,11;Han,2e80,1a,1,59,c,d6,2f,1,1,1,19,9",
    ",e,4,3c4,19c0,40,5200,5900,16e,2,6a,7508,2,c,2,900e,a6e0,20,103a,6,de,2,1682,e,1d31,c1f,21e,",
    "5e2,134b,5,1060;Hangul,1100,100,1e2e,2,101,5e,71,1f,41,1f,76e1,1d,283,2ba4,c,17,4,31,27a4,1f",
    ",3,6,2,6,2,6,2,3;Hanifi_Rohingya,10d00,28,8,a;Hanunoo,1720,15;Hatran,108e0,13,1,2,5,5;Hebrew",
    ",591,37,8,1b,4,6,f528,1a,1,5,1,1,1,2,1,2,1,a;Hiragana,3041,56,6,3,17f61,11f,12,1,1d,3,40ad,1",
    ";Imperial_Aramaic,10840,16,1,9;Inherited,300,70,115,2,1c4,b,1a,1,2e0,4,115b,1f,201,3,1,d,1,7",
    ",4,1,6,1,3,2,c6,40,20c,2,c2,21,f39,4,6b,2,cd65,10,10,e,3cf,1,e2,1,105a,1,bbc4,2e,2,17,220,3,",
    "11,8,2,7,1e,4,c2f52,f0;Inscriptional_Pahlavi,10b60,13,5,8;Inscriptional_Parthian,10b40,16,2,",
    "8;Javanese,a980,4e,2,a,4,2;Kaithi,11080,43,a,1;Kannada,c80,d,1,3,1,17,1,a,1,5,2,9,1,3,1,4,7,",
    "2,6,2,1,4,2,a,1,3;Katakana,30a1,5a,2,3,f0,10,d0,2f,1,58,cc0e,a,1,2d,b052,4,1,7,1,2,1,1,11f,3",
    ",32,1,e,4;Kawi,11f00,11,1,29,3,1c;Kayah_Li,a900,2e,1,1;Kharoshthi,10a00,4,1,2,5,8,1,3,1,1d,2",
    ",3,4,a,7,9;Khitan_Small_Script,16fe4,1,1b1b,1d6;Khmer,1780,5e,2,a,6,a,1e6,20;Khojki,11200,12",
    ",1,2f;Khudawadi,112b0,3b,5,a;Lao,e81,2,1,1,1,5,1,18,1,1,1,17,2,5,1,1,1,7,1,a,2,4;Latin,41,1a",
    ",6,1a,2f,1,f,1,5,17,1,1f,1,1c1,27,5,1a1b,26,6,31,5,4,5,d,1,46,41,100,171,1,d,1,10,d,8d,2,6,1",
    ",1b,1,11,29,ad7,20,7aa2,66,3,40,5,2,1,1,1,5,18,e,330,2b,1,9,1,4,4f96,7,41a,1a,6,1a,825,6,1,2",
    "a,1,9,d745,1f,6,6;Lepcha,1c00,38,3,f,3,3;Limbu,1900,1f,1,c,4,c,4,1,3,c;Linear_A,10600,137,9,",
    "16,a,8;Linear_B,10000,c,1,1a,1,13,1,2,1,f,2,e,22,7b;Lisu,a4d0,30,7ab0,1;Lycian,10280,1d;Lydi",
    "an,10920,1a,5,1;Mahajani,11150,27;Makasar,11ee0,19;Malayalam,d00,d,1,3,1,33,1,3,1,6,4,10,2,1",
    "a;Mandaic,840,1c,2,1;Manichaean,10ac0,27,4,c;Marchen,11c70,20,2,16,1,e;Masaram_Gondi,11d00,7",
    ",1,2,1,2c,3,1,1,2,1,9,8,a;Medefaidrin,16e40,5b;Meetei_Mayek,aae0,17,c9,2e,2,a;Mende_Kikakui,",
    "1e800,c5,2,10;Meroitic_Cursive,109a0,18,4,14,2,2e;Meroitic_Hieroglyphs,10980,20;Miao,16f00,4",
    "b,4,39,7,11;Modi,11600,45,b,a;Mongolian,1800,2,2,1,1,14,6,59,7,2b,fdb5,d;Mro,16a40,1f,1,a,4,",
    "2;Multani,11280,7,1,1,1,4,1,f,1,b;Myanmar,1000,a0,9940,1f,61,20;Nabataean,10880,1f,8,9;Nag_M",
    "undari,1e4d0,2a;Nandinagari,119a0,8,2,2e,2,b;New_Tai_Lue,1980,2c,4,1a,6,b,3,2;Newa,11400,5c,",
    "1,5;Nko,7c0,3b,2,3;Nushu,16fe1,1,418e,18c;Nyiakeng_Puachue_Hmong,1e100,2d,3,e,2,a,4,2;Ogham,",
    "1680,1d;Ol_Chiki,1c50,30;Old_Hungarian,10c80,33,d,33,7,6;Old_Italic,10300,24,9,3;Old_North_A",
    "rabian,10a80,20;Old_Permic,10350,2b;Old_Persian,103a0,24,4,e;Old_Sogdian,10f00,28;Old_South_",
    "Arabian,10a60,20;Old_Turkic,10c00,49;Old_Uyghur,10f70,1a;Oriya,b01,3,1,8,2,2,2,16,1,7,1,2,1,",
    "5,2,9,2,2,2,3,7,3,4,2,1,5,2,12;Osage,104b0,24,4,24;Osmanya,10480,1e,2,a;Pahawh_Hmong,16b00,4",
    "6,a,a,1,7,1,15,5,13;Palmyrene,10860,20;Pau_Cin_Hau,11ac0,39;Phags_Pa,a840,38;Phoenician,1090",
    "0,1c,3,1;Psalter_Pahlavi,10b80,12,7,4,c,7;Rejang,a930,24,b,1;Runic,16a0,4b,3,b;Samaritan,800",
    ",2e,2,f;Saurashtra,a880,46,8,c;Sharada,11180,60;Shavian,10450,30;Siddham,11580,36,2,26;SignW",
    "riting,1d800,28c,f,5,1,f;Sinhala,d81,3,1,12,3,18,1,9,1,1,2,7,3,1,4,6,1,1,1,8,6,a,2,3,103ec,1",
    "4;Sogdian,10f30,2a;Sora_Sompeng,110d0,19,7,a;Soyombo,11a50,53;Sundanese,1b80,40,100,8;Syloti",
    "_Nagri,a800,2d;Syriac,700,e,1,3c,2,3,110,b;Tagalog,1700,16,9,1;Tagbanwa,1760,d,1,3,1,2;Tai_L",
    "e,1950,1e,2,5;Tai_Tham,1a20,3f,1,1d,2,b,6,a,6,e;Tai_Viet,aa80,43,18,5;Takri,11680,3a,6,a;Tam",
    "il,b82,2,1,6,3,3,1,4,3,2,1,1,1,2,3,2,3,3,3,c,4,5,3,3,1,4,2,1,6,1,e,15,113c5,32,d,1;Tangsa,16",
    "a70,4f,1,a;Tangut,16fe0,1,1f,17f8,8,300,200,9;Telugu,c00,d,1,3,1,17,1,10,2,9,1,3,1,4,7,2,1,3",
    ",2,1,2,4,2,a,7,9;Thaana,780,32;Thai,e01,3a,5,1c;Tibetan,f00,48,1,24,4,27,1,24,1,f,1,7,4,2;Ti",
    "finagh,2d30,38,7,2,e,1;Tirhuta,11480,48,8,a;Toto,1e290,1f;Ugaritic,10380,1e,1,1;Vai,a500,12c",
    ";Vithkuqi,10570,b,1,f,1,7,1,2,1,b,1,f,1,7,1,2;Wancho,1e2c0,3a,5,1;Warang_Citi,118a0,53,c,1;Y",
    "ezidi,10e80,2a,1,3,2,2;Yi,a000,48d,3,37;Zanabazar_Square,11a00,48"]

/-- Ranges from distances and lengths, counted from a code point. -/
def rangesFrom (origin : Nat) : List Nat → Ranges
  | gap :: n :: rest => (origin + gap, origin + gap + n - 1) :: rangesFrom (origin + gap + n) rest
  | _ => []

/-- The scripts by name. -/
def table : List (String × Ranges) :=
  (data.splitOn ";").map fun entry ↦
    match entry.splitOn "," with
    | name :: numbers => (name, rangesFrom 0 (numbers.map hexNumber))
    | [] => ("", [])

/-- The ranges of the script with the given name. -/
def find? (name : String) : Option Ranges :=
  table.lookup name

end Tagfold.Unicode.Script
