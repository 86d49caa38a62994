import CoreLowering.Text.CodePoint

/-!
# Canonical decompositions

The tables behind composed text: the characters that are canonically a pair
of others, those that are canonically one other, the pairs that are never put
together again, and the combining classes of marks.  Hangul syllables are
computed and have no rows, nor have ideographs that are one other ideograph.
-/

namespace CoreLowering.Composed

/-- Characters that are a pair, as `whole=first+second`; after a comma comes
the pair of the next character, without what it has in common with the pair
before. -/
def pairText : String := "
1EF=292+30C 344=308+301 622=627+653,+654,648+,627+655,64A+654 6C0=6D5+654 6C2=6C1+654 6D3=6D2+654
929=928+93C 931=930+93C 934=933+93C 958=915+93C,916+,917+,91C+,921+,922+,92B+,92F+ 9CB=9C7+9BE,+9D7
9DC=9A1+9BC,9A2+ 9DF=9AF+9BC A33=A32+A3C A36=A38+A3C A59=A16+A3C,A17+,A1C+ A5E=A2B+A3C B48=B47+B56
B4B=B47+B3E,+B57 B5C=B21+B3C,B22+ B94=B92+BD7 BCA=BC6+BBE,BC7+,BC6+BD7 C48=C46+C56 CC0=CBF+CD5
CC7=CC6+CD5,+CD6 CCA=CC6+CC2,CCA+CD5 D4A=D46+D3E,D47+,D46+D57 DDA=DD9+DCA
DDC=DD9+DCF,DDC+DCA,DD9+DDF F43=F42+FB7 F4D=F4C+FB7 F52=F51+FB7 F57=F56+FB7 F5C=F5B+FB7 F69=F40+FB5
F73=F71+F72 F75=F71+F74,FB2+F80 F78=FB3+F80 F81=F71+F80 F93=F92+FB7 F9D=F9C+FB7 FA2=FA1+FB7
FA7=FA6+FB7 FAC=FAB+FB7 FB9=F90+FB5 1026=1025+102E 1B06=1B05+1B35 1B08=1B07+1B35 1B0A=1B09+1B35
1B0C=1B0B+1B35 1B0E=1B0D+1B35 1B12=1B11+1B35 1B3B=1B3A+1B35 1B3D=1B3C+1B35 1B40=1B3E+1B35,1B3F+
1B43=1B42+1B35 2260=3D+338 2ADC=2ADD+338 FB1D=5D9+5B4 FB1F=5F2+5B7
FB2A=5E9+5C1,+5C2,FB49+5C1,+5C2,5D0+5B7,+5B8,+5BC,5D1+,5D2+,5D3+,5D4+,5D5+,5D6+
FB38=5D8+5BC,5D9+,5DA+,5DB+,5DC+ FB3E=5DE+5BC FB40=5E0+5BC,5E1+ FB43=5E3+5BC,5E4+
FB46=5E6+5BC,5E7+,5E8+,5E9+,5EA+,5D5+5B9,5D1+5BF,5DB+,5E4+ 1109A=11099+110BA 1109C=1109B+110BA
110AB=110A5+110BA 1112E=11131+11127,11132+ 1134B=11347+1133E,+11357 114BB=114B9+114BA,+114B0
114BE=114B9+114BD 115BA=115B8+115AF,115B9+ 11938=11935+11930
1D15E=1D157+1D165,1D158+,1D15F+1D16E,+1D16F,+1D170,+1D171,+1D172
1D1BB=1D1B9+1D165,1D1BA+,1D1BB+1D16E,1D1BC+,1D1BB+1D16F,1D1BC+"

/-- Letters with a mark, as `mark=` and then each letter and the character that
it is with the mark. -/
def markText : String := "
300=AÀEÈIÌOÒUÙaàeèiìoòuùÜǛüǜNǸnǹЕЀИЍеѐиѝĒḔēḕŌṐōṑWẀwẁÂẦâầĂẰăằÊỀêềÔỒôồƠỜơờƯỪưừYỲyỳἀἂἁἃἈἊἉἋἐἒἑἓἘἚἙἛἠἢἡἣ
300=ἨἪἩἫἰἲἱἳἸἺἹἻὀὂὁὃὈὊὉὋὐὒὑὓὙὛὠὢὡὣὨὪὩὫαὰεὲηὴιὶοὸυὺωὼΑᾺΕῈΗῊ᾿῍ϊῒΙῚ῾῝ϋῢΥῪ¨῭ΟῸΩῺ 301=AÁEÉIÍOÓUÚYÝaáeéií
301=oóuúyýCĆcćLĹlĺNŃnńRŔrŕSŚsśZŹzźÜǗüǘGǴgǵÅǺåǻÆǼæǽØǾøǿ¨΅ΑΆΕΈΗΉΙΊΟΌΥΎΩΏϊΐαάεέηήιίϋΰοόυύωώϒϓГЃКЌгѓкќÇḈ
301=çḉĒḖēḗÏḮïḯKḰkḱMḾmḿÕṌõṍŌṒōṓPṔpṕŨṸũṹWẂwẃÂẤâấĂẮăắÊẾêếÔỐôốƠỚơớƯỨưứἀἄἁἅἈἌἉἍἐἔἑἕἘἜἙἝἠἤἡἥἨἬἩἭἰἴἱἵἸἼἹἽὀὄ
301=ὁὅὈὌὉὍὐὔὑὕὙὝὠὤὡὥὨὬὩὭ᾿῎῾῞ 302=AÂEÊIÎOÔUÛaâeêiîoôuûCĈcĉGĜgĝHĤhĥJĴjĵSŜsŝWŴwŵYŶyŷZẐzẑẠẬạậẸỆẹệỌỘọộ
303=AÃNÑOÕaãnñoõIĨiĩUŨuũVṼvṽÂẪâẫĂẴăẵEẼeẽÊỄêễÔỖôỗƠỠơỡƯỮưữYỸyỹ 304=AĀaāEĒeēIĪiīOŌoōUŪuūÜǕüǖÄǞäǟȦǠȧǡÆǢ
304=æǣǪǬǫǭÖȪöȫÕȬõȭȮȰȯȱYȲyȳИӢиӣУӮуӯGḠgḡḶḸḷḹṚṜṛṝαᾱΑᾹιῑΙῙυῡΥῩ 306=AĂaăEĔeĕGĞgğIĬiĭOŎoŏUŬuŭУЎИЙийуўЖӁжӂ
306=АӐаӑЕӖеӗȨḜȩḝẠẶạặαᾰΑᾸιῐΙῘυῠΥῨ 307=CĊcċEĖeėGĠgġIİZŻzżAȦaȧOȮoȯBḂbḃDḊdḋFḞfḟHḢhḣMṀmṁNṄnṅPṖpṗRṘrṙSṠsṡ
307=ŚṤśṥŠṦšṧṢṨṣṩTṪtṫWẆwẇXẊxẋYẎyẏſẛ 308=AÄEËIÏOÖUÜaäeëiïoöuüyÿYŸΙΪΥΫιϊυϋϒϔЕЁІЇеёіїАӒаӓӘӚәӛЖӜжӝЗӞзӟИӤ
308=иӥОӦоӧӨӪөӫЭӬэӭУӰуӱЧӴчӵЫӸыӹHḦhḧÕṎõṏŪṺūṻWẄwẅXẌxẍtẗ 309=AẢaảÂẨâẩĂẲăẳEẺeẻÊỂêểIỈiỉOỎoỏÔỔôổƠỞơởUỦuủƯỬ
309=ưửYỶyỷ 30A=AÅaåUŮuůwẘyẙ 30B=OŐoőUŰuűУӲуӳ 30C=CČcčDĎdďEĚeěLĽlľNŇnňRŘrřSŠsšTŤtťZŽzžAǍaǎIǏiǐOǑoǒUǓ
30C=uǔÜǙüǚGǦgǧKǨkǩƷǮjǰHȞhȟ 30F=AȀaȁEȄeȅIȈiȉOȌoȍRȐrȑUȔuȕѴѶѵѷ 311=AȂaȃEȆeȇIȊiȋOȎoȏRȒrȓUȖuȗ 313=αἀΑἈεἐ
313=ΕἘηἠΗἨιἰΙἸοὀΟὈυὐωὠΩὨρῤ 314=αἁΑἉεἑΕἙηἡΗἩιἱΙἹοὁΟὉυὑΥὙωὡΩὩρῥΡῬ 31B=OƠoơUƯuư 323=BḄbḅDḌdḍHḤhḥKḲkḳLḶ
323=lḷMṂmṃNṆnṇRṚrṛSṢsṣTṬtṭVṾvṿWẈwẉZẒzẓAẠaạEẸeẹIỊiịOỌoọƠỢơợUỤuụƯỰưựYỴyỵ 324=UṲuṳ 325=AḀaḁ 326=SȘsșTȚ
326=tț 327=CÇcçGĢgģKĶkķLĻlļNŅnņRŖrŗSŞsşTŢtţEȨeȩDḐdḑHḨhḩ 328=AĄaąEĘeęIĮiįUŲuųOǪoǫ 32D=DḒdḓEḘeḙLḼlḽNṊ
32D=nṋTṰtṱUṶuṷ 32E=HḪhḫ 330=EḚeḛIḬiḭUṴuṵ 331=BḆbḇDḎdḏKḴkḵLḺlḻNṈnṉRṞrṟTṮtṯZẔzẕhẖ 338=←↚→↛↔↮⇐⇍⇔⇎⇒⇏∃∄∈∉
338=∋∌∣∤∥∦∼≁≃≄≅≇≈≉≡≢≍≭<≮>≯≤≰≥≱≲≴≳≵≶≸≷≹≺⊀≻⊁⊂⊄⊃⊅⊆⊈⊇⊉⊢⊬⊨⊭⊩⊮⊫⊯≼⋠≽⋡⊑⋢⊒⋣⊲⋪⊳⋫⊴⋬⊵⋭ 342=ἀἆἁἇἈἎἉἏἠἦἡἧἨἮἩἯἰἶἱἷ
342=ἸἾἹἿὐὖὑὗὙὟὠὦὡὧὨὮὩὯαᾶ¨῁ηῆ᾿῏ιῖϊῗ῾῟υῦϋῧωῶ 345=ἀᾀἁᾁἂᾂἃᾃἄᾄἅᾅἆᾆἇᾇἈᾈἉᾉἊᾊἋᾋἌᾌἍᾍἎᾎἏᾏἠᾐἡᾑἢᾒἣᾓἤᾔἥᾕἦᾖἧᾗἨᾘἩᾙ
345=ἪᾚἫᾛἬᾜἭᾝἮᾞἯᾟὠᾠὡᾡὢᾢὣᾣὤᾤὥᾥὦᾦὧᾧὨᾨὩᾩὪᾪὫᾫὬᾬὭᾭὮᾮὯᾯὰᾲαᾳάᾴᾶᾷΑᾼὴῂηῃήῄῆῇΗῌὼῲωῳώῴῶῷΩῼ 3099=かがきぎくぐけげこごさざしじすず
3099=せぜそぞただちぢつづてでとどはばひびふぶへべほぼうゔゝゞカガキギクグケゲコゴサザシジスズセゼソゾタダチヂツヅテデトドハバヒビフブヘベホボウヴワヷヰヸヱヹヲヺヽヾ 309A=はぱひぴふぷへぺ
309A=ほぽハパヒピフプヘペホポ"

/-- Characters that are another one, as `whole=other`; after a comma comes that
of the next character. -/
def singleText : String := "
340=300,301 343=313 374=2B9 37E=3B 387=B7 1F71=3AC 1F73=3AD 1F75=3AE 1F77=3AF 1F79=3CC 1F7B=3CD
1F7D=3CE 1FBB=386 1FBE=3B9 1FC9=388 1FCB=389 1FD3=390 1FDB=38A 1FE3=3B0 1FEB=38E 1FEE=385,60
1FF9=38C 1FFB=38F 1FFD=B4 2000=2002,2003 2126=3A9 212A=4B,C5 2329=3008,3009"

/-- The pairs that stay apart in composed text. -/
def apart : CodePoint.Ranges := CodePoint.Ranges.ofText "
344 958-F,DC-D,F A33,6,59-B,E B5C-D F43,D,52,7,C,69,73,5-6,8,81,93,D,A2,7,C,B9 2ADC FB1D,F,2A-36,8-C
FB3E,40-1,3-4,6-E 1D15E-64,BB-C0"

/-- The combining classes other than zero, as `class=first-last,first-last`. -/
def classText : String := "
E6=300-14,3D-44,6,A-C,50-2,7,B,63-F,483-7,592-5,7-9,C-A1,8-9,B-C,F,C4,610-7,53-4,7-B,D-E,D6-C,F-E2,4
E6=6E7-8,B-C,730,2-3,5-6,A,D,F-41,3,5,7,9-A,EB-F1,3,816-9,B-23,5-7,9-D,98,C-F,CA-E,D4-E1,4-5,7-8,A-C
E6=8F3-5,7-8,B-F,951,3-4,FE,F82-3,6-7,135D-F,7DD,93A,A17,75-C,B0-4,B-C,C1-2,5-9,B-E,B6B,D-73,CD0-2
E6=1CDA-B,E0,F4,8-9,DC0-1,3-9,B-C,D1-F5,B,E,20D0-1,4-7,B-C,E1,7,9,F0,CEF-F1,DE0-FF,A66F,74-D,9E-F
E6=A6F0-1,8E0-F1,AB0,2-3,7-8,E-F,C1,FE20-6,E-F,10376-A,A0F,38,E5,D24-7,EAB-C,F48-A,C,82,4,1100-2
E6=11366-C,70-4,45E,6B30-6,D185-9,AA-D,242-4,E000-6,8-18,B-21,3-4,6-A,8F,130-6,2AE,EC-F,4EF,944-9
E8=315,A,58,1DF6,302C,1E4EC-D DC=316-9,C-20,3-6,9-33,9-C,47-9,D-E,53-6,9-A,591,6,B,A2-7,A,C5,655-6,C
DC=65F,E3,A,D,731,4,7-9,B-C,E,42,4,6,8,F2,D,859-B,99-B,CF-D3,E3,6,9,D-F,F6,9-A,952,F18-9,35,7,C6
DC=108D,93B,A18,7F,B5-A,D,F-C0,3-4,A,B6C,CD5-9,C-F,ED,DC2,A,F,F9,D,F,20E8,C-F,A92B-D,AB4,FE27-D
DC=101FD,2E0,A0D,3A,E6,EFD-F,F46-7,B,D-50,83,5,D17B-82,A-B,E4EE,8D0-6 D8=31B,F39,1D165-6,E-72
CA=321-2,7-8,1DD0 1=334-8,1CD4,E2-8,20D2-3,8-A,E5-6,A-B,10A39,6AF0-4,BC9E,D167-9 F0=345 E9=35C,F,62
E9=1DFC EA=35D-E,60-1,1DCD DE=59A,AD,1939,302D E4=5AE,18A9,DF7-8,302B A=5B0 B=5B1 C=5B2 D=5B3 E=5B4
F=5B5 10=5B6 11=5B7 12=5B8,C7 13=5B9-A 14=5BB 15=5BC 16=5BD 17=5BF 18=5C1 19=5C2 1E=618,4E 1F=619,4F
20=61A,50 1B=64B,8F0 1C=64C,8F1 1D=64D,8F2 21=651 22=652 23=670 24=711 7=93C,BC,A3C,BC,B3C,C3C,BC
7=1037,B34,E6,C37,A9B3,110BA,173,CA,236,E9,33B-C,446,C3,5C0,6B7,83A,943,D42,E94A 9=94D,CD,A4D,CD,B4D
9=BCD,C4D,CD,D3B-C,4D,CA,E3A,BA,F84,1039-A,714-5,34,D2,A60,B44,AA-B,F2-3,2D7F,A806,2C,C4,953,C0,AF6
9=ABED,10A3F,1046,70,F,B9,133-4,C0,235,EA,34D,442,C2,5BF,63F,B6,72B,839,93D-E,E0,A34,47,99,C3F,D44-5
9=11D97,F41-2 54=C55 5B=C56 67=E38-9 6B=E48-B 76=EB8-9 7A=EC8-B,E 81=F71 82=F72,A-D,80 84=F74
D6=1DCE DA=1DFA,302A E0=302E-F 8=3099-A 1A=FB1E 6=16FF0-1 E2=1D16D"

end CoreLowering.Composed
